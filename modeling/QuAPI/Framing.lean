import QuAPI.ZeroCopy

/-!
# Framing

Writes of any sizes below a block are framed: they are packed into blocks, a block for as many of
them as it holds, and no write is split. The reader unpacks the blocks again, in pieces that need
not be those that were written (`QuAPI.framing_faithful`).

A write goes into the current block if there is room (`QuAPI.Pushes`), and otherwise into the next
one; so what the writer keeps is `QuAPI.Packed`. The reader asks for the next block when the
position is at the end of the last one. This is decided by the writer's counter alone, and the two
ends agree since no piece that is read crosses the end of a block.
-/

namespace QuAPI

open Bytes

/-! ### What a user does with a pipe -/

/-- A use of the writing end. -/
inductive Op where
  /-- A write from memory of the caller. -/
  | write (size count : ℕ) (data : Memory)
  /-- Memory is prepared, and not used. -/
  | prepare (size count : ℕ)
  /-- Memory is prepared, filled, and written. -/
  | inPlace (size count : ℕ) (data : Memory)
  | flush

/-- How many bytes are asked for. -/
def Op.size : Op → ℕ
  | .write size count _ => sizeT (size * count)
  | .prepare size count => sizeT (size * count)
  | .inPlace size count _ => sizeT (size * count)
  | .flush => 0

/-- What is written, if something is. -/
def Op.writes : Op → List (List UInt8)
  | .write size count data => [bytesAt data 0 (sizeT (size * count))]
  | .prepare _ _ => []
  | .inPlace size count data => [bytesAt data 0 (sizeT (size * count))]
  | .flush => []

theorem Op.length_writes_le (op : Op) : op.writes.flatten.length ≤ op.size := by
  cases op with
  | write size count data =>
    rw [writes, List.flatten_singleton, length_bytesAt, Op.size]
  | prepare size count => exact Nat.zero_le _
  | inPlace size count data =>
    rw [writes, List.flatten_singleton, length_bytesAt, Op.size]
  | flush => exact le_rfl

/-- The result of a call is not used. -/
def Call.void {ρ : Type} (c : Call ρ) : Option (Call Unit) := c.andThen fun _ p => some ⟨(), [], p⟩

namespace ZerocopyPipe

/-- A use of the writing end, with a kernel that takes every block. -/
def perform (p : ZerocopyPipe) : Op → Option (Call Unit)
  | .write size count data => (p.quapiZerocopyPipeWrite (.outside data) size count .done).bind
      Call.void
  | .prepare size count => (p.quapiZerocopyPipePrepareWrite size count .done).bind Call.void
  | .inPlace size count data =>
    (p.quapiZerocopyPipePrepareWrite size count .done).bind fun c => c.andThen fun pos p =>
      pos.bind fun pos => (p.fill pos data (sizeT (size * count))).bind fun p =>
        (p.quapiZerocopyPipeWrite (.inPipe pos) size count .done).bind Call.void
  | .flush => p.quapiZerocopyPipeFlush .done

/-- Several uses, one behind the other. -/
def run : ZerocopyPipe → List Op → Option (Call Unit)
  | p, [] => some ⟨(), [], p⟩
  | p, op :: ops => (p.perform op).bind fun c => c.andThen fun _ p => p.run ops

end ZerocopyPipe

/-! ### Calls in sequence -/

section

variable {ρ σ τ : Type}

/-- The calls behind a call can be taken together. -/
theorem Call.bind_andThen (e : Option (Call ρ)) (k : ρ → ZerocopyPipe → Option (Call σ))
    (l : σ → ZerocopyPipe → Option (Call τ)) :
    ((e.bind fun c => c.andThen k).bind fun d => d.andThen l) =
      e.bind fun c => c.andThen fun r p => (k r p).bind fun d => d.andThen l := by
  rw [Option.bind_assoc]
  refine congrArg _ (funext ?_)
  intro c
  rw [andThen, andThen]
  cases k c.ret c.pipe with
  | none => rfl
  | some d =>
    rw [Option.map_some, Option.bind_some, Option.bind_some, andThen, andThen, Option.map_map]
    refine congrArg (Option.map · _) (funext ?_)
    intro e
    rw [Function.comp_apply, List.append_assoc]

theorem Call.andThen_of_sent_nil (r : ρ) (p : ZerocopyPipe)
    (k : ρ → ZerocopyPipe → Option (Call σ)) : (Call.mk r [] p).andThen k = k r p := by
  rw [andThen]
  cases k r p with
  | none => rfl
  | some d => rfl

end

/-! ### The current buffer and the other one -/

namespace ZerocopyPipe

variable {p p' : ZerocopyPipe} {n size count : ℕ} {data : Memory}

@[simp] theorem current_setCurrent (p : ZerocopyPipe) (m : Memory) :
    (p.setCurrent m).current = m := Function.update_self _ _ _

@[simp] theorem other_setCurrent (p : ZerocopyPipe) (m : Memory) :
    (p.setCurrent m).other = p.other := by
  have hne : p.currentBuf + 1 ≠ p.currentBuf := by
    generalize p.currentBuf = i
    revert i
    decide
  exact Function.update_of_ne hne _ _

@[simp] theorem current_switch (p : ZerocopyPipe) : p.switch.current = setWritten p.other 0 :=
  current_setCurrent _ _

@[simp] theorem other_switch (p : ZerocopyPipe) : p.switch.other = p.current := by
  have htwice : p.currentBuf + 1 + 1 = p.currentBuf := by
    generalize p.currentBuf = i
    revert i
    decide
  have hother : p.switch.other = p.buf (p.currentBuf + 1 + 1) := other_setCurrent _ _
  rw [hother, htwice, current]

theorem written_switch (p : ZerocopyPipe) : written p.switch.current = 0 := by
  rw [current_switch, written_setWritten]
  rfl

/-! ### Room -/

theorem flushOut_done (h : written p.current ≤ bufSize) :
    p.flushOut .done = some ⟨bufSize, [p.block], p.switch⟩ := by
  rw [flushOut, if_neg (not_lt.mpr h)]

theorem ensureSpaceFree_of_room (h : written p.current + n + wordSize < bufSize) :
    p.ensureSpaceFree n .done = some ⟨true, [], p⟩ := by
  rw [ensureSpaceFree, sizeT_of_le h.le, if_neg (not_le.mpr h)]

theorem ensureSpaceFree_of_full (hroom : written p.current + wordSize < bufSize)
    (hn : n + wordSize < bufSize) (h : bufSize ≤ written p.current + n + wordSize) :
    p.ensureSpaceFree n .done = some ⟨true, [p.block], p.switch⟩ := by
  have hsmall : written p.current + n + wordSize < 18446744073709551616 := by
    have hbuf := bufSize_eq
    omega
  rw [ensureSpaceFree, sizeT_of_lt hsmall, if_pos h, flushOut_done (by omega), Option.bind_some,
    Call.andThen]
  rfl

/-- Every use but a flush begins with making room. -/
theorem exists_perform_eq {op : Op} (hop : op ≠ .flush) :
    ∃ k, ∀ p : ZerocopyPipe, p.perform op =
      (p.ensureSpaceFree op.size .done).bind fun c => c.andThen k := by
  cases op with
  | flush => exact absurd rfl hop
  | write size count data => exact ⟨_, fun p => Call.bind_andThen _ _ _⟩
  | prepare size count => exact ⟨_, fun p => Call.bind_andThen _ _ _⟩
  | inPlace size count data => exact ⟨_, fun p => Call.bind_andThen _ _ _⟩

/-- **Where there is no room, the block is sent first**, and then there is. -/
theorem perform_of_full {op : Op} (hop : op ≠ .flush)
    (hroom : written p.current + wordSize < bufSize) (hsize : op.size + wordSize < bufSize)
    (h : bufSize ≤ written p.current + op.size + wordSize) :
    p.perform op = (p.switch.perform op).map fun c => { c with sent := p.block :: c.sent } := by
  obtain ⟨k, hk⟩ := exists_perform_eq hop
  have hfree : written p.switch.current + op.size + wordSize < bufSize := by
    rw [written_switch]
    omega
  rw [hk, hk, ensureSpaceFree_of_full hroom hsize h, ensureSpaceFree_of_room hfree,
    Option.bind_some, Option.bind_some, Call.andThen_of_sent_nil, Call.andThen]
  rfl

end ZerocopyPipe

/-! ### A use that has room -/

/-- **The bytes have been put** behind what the current buffer holds. -/
structure Pushes (p p' : ZerocopyPipe) (bytes : List UInt8) : Prop where
  currentBuf : p'.currentBuf = p.currentBuf
  other : p'.other = p.other
  counter : written p'.current = written p.current + bytes.length
  held : payload p'.current = payload p.current ++ bytes

namespace ZerocopyPipe

variable {p q : ZerocopyPipe} {n : ℕ} {data : Memory}

/-- A copy behind the counter leaves the counter. -/
theorem written_copy (m : Memory) (k : ℕ) (src : Memory) (n : ℕ) :
    written (copy m (wordSize + k) src n) = written m := by
  refine written_congr (bytesAt_copy_of_le ?_)
  omega

/-- A copy behind what is held leaves it. -/
theorem bytesAt_copy_payload (m : Memory) (src : Memory) (n : ℕ) :
    bytesAt (copy m (wordSize + written m) src n) wordSize (written m) = payload m :=
  bytesAt_copy_of_le le_rfl

/-- The counter comes last. -/
theorem pushes_setWritten (hcur : q.currentBuf = p.currentBuf) (hother : q.other = p.other)
    (hkeep : bytesAt q.current wordSize (written p.current) = payload p.current)
    (hroom : written p.current + n + wordSize < bufSize) :
    Pushes p (q.setCurrent (setWritten q.current (written p.current + n)))
      (bytesAt q.current (wordSize + written p.current) n) := by
  have hcounter : written (q.setCurrent (setWritten q.current (written p.current + n))).current =
      written p.current + n := by
    rw [current_setCurrent, written_setWritten]
    exact sizeT_of_le (by omega)
  refine ⟨hcur, (other_setCurrent _ _).trans hother, ?_, ?_⟩
  · rw [hcounter, length_bytesAt]
  · rw [payload, hcounter, current_setCurrent, bytesAt_setWritten _ _ le_rfl, bytesAt_add, hkeep]

/-- Bytes of the caller are copied. -/
theorem exists_put_outside (hroom : written p.current + n + wordSize < bufSize) :
    ∃ p', p.put (.outside data) n = some p' ∧ Pushes p p' (bytesAt data 0 n) := by
  have hfits : wordSize + written p.current + n ≤ bufSize := by omega
  have hpush := pushes_setWritten (p := p) (n := n)
    (q := p.setCurrent (copy p.current (wordSize + written p.current) data n)) rfl
    (other_setCurrent _ _) (by rw [current_setCurrent, bytesAt_copy_payload]) hroom
  rw [current_setCurrent, bytesAt_copy] at hpush
  refine ⟨_, ?_, hpush⟩
  rw [put]
  simp only [isPrepared, Bool.false_eq_true, if_false, hfits, if_true, Option.map_some, memoryAt,
    current_setCurrent]

/-- Bytes that are in place are not. -/
theorem exists_put_inPipe
    (hp : p.prepared = some ⟨p.currentBuf, wordSize + written p.current⟩)
    (hroom : written p.current + n + wordSize < bufSize) :
    ∃ p', p.put (.inPipe ⟨p.currentBuf, wordSize + written p.current⟩) n = some p' ∧
      Pushes p p' (bytesAt p.current (wordSize + written p.current) n) := by
  have hpush := pushes_setWritten (p := p) (n := n) (q := { p with
    prepared := p.prepared.map fun pos => { pos with offset := pos.offset + n } }) rfl rfl rfl hroom
  refine ⟨_, ?_, hpush⟩
  have hprepared : p.isPrepared (.inPipe ⟨p.currentBuf, wordSize + written p.current⟩) = true :=
    decide_eq_true hp
  rw [put]
  simp only [hprepared, if_true, Option.map_some]

/-- What is prepared where there is room. -/
theorem quapiZerocopyPipePrepareWrite_of_room {size count : ℕ}
    (hroom : written p.current + sizeT (size * count) + wordSize < bufSize) :
    p.quapiZerocopyPipePrepareWrite size count .done =
      some ⟨some ⟨p.currentBuf, wordSize + written p.current⟩, [],
        { p with prepared := some ⟨p.currentBuf, wordSize + written p.current⟩ }⟩ := by
  rw [quapiZerocopyPipePrepareWrite]
  simp only [ensureSpaceFree_of_room hroom, Option.bind_some]
  exact Call.andThen_of_sent_nil _ _ _

/-- What is written where there is room. -/
theorem quapiZerocopyPipeWrite_of_room {size count : ℕ} {d : Data}
    (hroom : written p.current + sizeT (size * count) + wordSize < bufSize) :
    (p.quapiZerocopyPipeWrite d size count .done).bind Call.void =
      (p.put d (sizeT (size * count))).map fun p => ⟨(), [], p⟩ := by
  rw [quapiZerocopyPipeWrite]
  simp only [ensureSpaceFree_of_room hroom, Option.bind_some, Call.andThen_of_sent_nil, if_true]
  cases p.put d (sizeT (size * count)) with
  | none => rfl
  | some q => rfl

/-- Memory that is prepared does not count. -/
theorem pushes_prepared (p : ZerocopyPipe) (pos : Option Position) :
    Pushes p { p with prepared := pos } [] := by
  have hcurrent : ({ p with prepared := pos } : ZerocopyPipe).current = p.current := rfl
  refine ⟨rfl, rfl, ?_, ?_⟩
  · rw [hcurrent, List.length_nil, Nat.add_zero]
  · rw [hcurrent, List.append_nil]

/-- The pipe once memory is prepared, and the caller has put its bytes there. -/
def filled (p : ZerocopyPipe) (data : Memory) (n : ℕ) : ZerocopyPipe where
  currentBuf := p.currentBuf
  buf := Function.update p.buf p.currentBuf (copy p.current (wordSize + written p.current) data n)
  prepared := some ⟨p.currentBuf, wordSize + written p.current⟩

theorem current_filled (p : ZerocopyPipe) (data : Memory) (n : ℕ) :
    (p.filled data n).current = copy p.current (wordSize + written p.current) data n :=
  Function.update_self _ _ _

theorem written_filled (p : ZerocopyPipe) (data : Memory) (n : ℕ) :
    written (p.filled data n).current = written p.current := by
  rw [current_filled, written_copy]

/-- The write of what is in place. -/
theorem pushes_filled (hroom : written p.current + n + wordSize < bufSize) :
    ∃ p', (p.filled data n).put (.inPipe ⟨p.currentBuf, wordSize + written p.current⟩) n =
      some p' ∧ Pushes p p' (bytesAt data 0 n) := by
  have hwritten := written_filled p data n
  have hprepared : (p.filled data n).prepared = some ⟨(p.filled data n).currentBuf,
      wordSize + written (p.filled data n).current⟩ := by
    rw [hwritten]
    rfl
  obtain ⟨p', hput, hpush⟩ := exists_put_inPipe (n := n) hprepared (hwritten.symm ▸ hroom)
  rw [hwritten] at hput
  refine ⟨p', hput, hpush.currentBuf, ?_, ?_, ?_⟩
  · exact hpush.other.trans (other_setCurrent p _)
  · rw [hpush.counter, hwritten, length_bytesAt, length_bytesAt]
  · rw [hpush.held, hwritten, payload, hwritten, current_filled, bytesAt_copy, bytesAt_copy_payload]

/-- **A use that has room** puts its bytes into the current buffer, and sends nothing. -/
theorem perform_of_room {op : Op} (hop : op ≠ .flush)
    (hroom : written p.current + op.size + wordSize < bufSize) :
    ∃ p', p.perform op = some ⟨(), [], p'⟩ ∧ Pushes p p' op.writes.flatten := by
  cases op with
  | flush => exact absurd rfl hop
  | write size count data =>
    obtain ⟨p', hput, hpush⟩ : ∃ p', p.put (.outside data) (sizeT (size * count)) = some p' ∧
        Pushes p p' (bytesAt data 0 (sizeT (size * count))) := exists_put_outside hroom
    refine ⟨p', ?_, ?_⟩
    · rw [perform, quapiZerocopyPipeWrite_of_room hroom, hput, Option.map_some]
    · rwa [Op.writes, List.flatten_singleton]
  | prepare size count =>
    refine ⟨{ p with prepared := some ⟨p.currentBuf, wordSize + written p.current⟩ }, ?_, ?_⟩
    · rw [perform, quapiZerocopyPipePrepareWrite_of_room hroom]
      rfl
    · exact pushes_prepared _ _
  | inPlace size count data =>
    have hfits : wordSize + written p.current + sizeT (size * count) ≤ bufSize := by
      change written p.current + sizeT (size * count) + wordSize < bufSize at hroom
      omega
    have hfill : ({ p with prepared := some ⟨p.currentBuf, wordSize + written p.current⟩ } :
        ZerocopyPipe).fill ⟨p.currentBuf, wordSize + written p.current⟩ data
          (sizeT (size * count)) = some (p.filled data (sizeT (size * count))) := if_pos hfits
    obtain ⟨p', hput, hpush⟩ : ∃ p', (p.filled data (sizeT (size * count))).put
        (.inPipe ⟨p.currentBuf, wordSize + written p.current⟩) (sizeT (size * count)) = some p' ∧
          Pushes p p' (bytesAt data 0 (sizeT (size * count))) := pushes_filled hroom
    refine ⟨p', ?_, ?_⟩
    · rw [perform, quapiZerocopyPipePrepareWrite_of_room hroom]
      simp only [Option.bind_some, Call.andThen_of_sent_nil, hfill]
      rw [quapiZerocopyPipeWrite_of_room ((written_filled p data _).symm ▸ hroom), hput,
        Option.map_some]
    · rwa [Op.writes, List.flatten_singleton]

end ZerocopyPipe

/-! ### What the writer keeps -/

/-- **A block carries the writes `ws`**, each as a whole: the counter is their length, and they
are behind it. -/
structure Carries (b : List UInt8) (ws : List (List UInt8)) : Prop where
  length : b.length = bufSize
  pos : 0 < written (ofList b)
  room : written (ofList b) + wordSize < bufSize
  held : payload (ofList b) = ws.flatten

/-- **The writes `ws` are packed**: into the blocks that have been sent, and behind these into the
current buffer. -/
structure Packed (p : ZerocopyPipe) (sent ws : List (List UInt8)) : Prop where
  room : written p.current + wordSize < bufSize
  other : written p.other + wordSize < bufSize
  groups : ∃ groups last, ws = groups.flatten ++ last ∧ payload p.current = last.flatten ∧
    List.Forall₂ Carries sent groups

section

variable {sent : List (List UInt8)} {groups : List (List (List UInt8))}

theorem exists_carries (h : List.Forall₂ Carries sent groups) {b : List UInt8} (hb : b ∈ sent) :
    ∃ ws, Carries b ws := by
  induction h with
  | nil => exact absurd hb List.not_mem_nil
  | cons hcarries _ ih =>
    rcases List.mem_cons.mp hb with rfl | hb
    · exact ⟨_, hcarries⟩
    · exact ih hb

theorem map_payload (h : List.Forall₂ Carries sent groups) :
    sent.map (fun b => payload (ofList b)) = groups.map List.flatten := by
  induction h with
  | nil => rfl
  | cons hcarries _ ih => rw [List.map_cons, hcarries.held, ih, List.map_cons]

end

namespace ZerocopyPipe

variable {p p' : ZerocopyPipe} {sent ws vs : List (List UInt8)}

theorem room_of_eq_zero {n : ℕ} (h : n = 0) : n + wordSize < bufSize := by
  subst h
  decide

theorem length_block (p : ZerocopyPipe) : p.block.length = bufSize := length_bytesAt _ _ _

/-- A block is read as the buffer that it is. -/
theorem written_block (p : ZerocopyPipe) : written (ofList p.block) = written p.current := by
  refine written_congr (bytesAt_ofList ?_)
  exact (room_of_eq_zero rfl).le

theorem payload_block (h : written p.current + wordSize < bufSize) :
    payload (ofList p.block) = payload p.current := by
  rw [payload, written_block, block, bytesAt_ofList (by omega), payload]

/-- Nothing is packed at the start. -/
theorem packed_fdopen (mem : Fin 2 → Memory) : Packed (fdopen mem) [] [] := by
  have hzero : ∀ i, written ((fdopen mem).buf i) = 0 := fun i => written_setWritten (mem i) 0
  have hroom : ∀ i, written ((fdopen mem).buf i) + wordSize < bufSize := fun i =>
    room_of_eq_zero (hzero i)
  refine ⟨hroom _, hroom _, [], [], rfl, ?_, List.Forall₂.nil⟩
  exact List.eq_nil_of_length_eq_zero ((length_payload _).trans (hzero _))

/-- The block is sent. -/
theorem packed_switch (h : Packed p sent ws) (hpos : 0 < written p.current) :
    Packed p.switch (sent ++ [p.block]) ws := by
  obtain ⟨hroom, hother, groups, last, rfl, hlast, hsent⟩ := h
  have hempty : written p.switch.current = 0 := written_switch p
  refine ⟨?_, ?_, groups ++ [last], [], ?_, ?_, ?_⟩
  · exact room_of_eq_zero hempty
  · rw [other_switch]
    exact hroom
  · rw [List.flatten_append, List.flatten_singleton, List.append_nil]
  · exact List.eq_nil_of_length_eq_zero ((length_payload _).trans hempty)
  · have hcarries : Carries p.block last := by
      refine ⟨length_block p, ?_, ?_, ?_⟩
      · rw [written_block]
        exact hpos
      · rw [written_block]
        exact hroom
      · rw [payload_block hroom, hlast]
    exact List.rel_append hsent (List.Forall₂.cons hcarries List.Forall₂.nil)

/-- The current buffer takes more. -/
theorem packed_push (h : Packed p sent ws) (hpush : Pushes p p' vs.flatten)
    (hroom : written p'.current + wordSize < bufSize) : Packed p' sent (ws ++ vs) := by
  obtain ⟨-, hother, groups, last, rfl, hlast, hsent⟩ := h
  refine ⟨hroom, hpush.other.symm ▸ hother, groups, last ++ vs, List.append_assoc _ _ _, ?_, hsent⟩
  rw [hpush.held, hlast, List.flatten_append]

/-- **One use** keeps the writes packed. -/
theorem packed_perform {op : Op} (h : Packed p sent ws) (hsize : op.size + wordSize < bufSize) :
    ∃ c, p.perform op = some c ∧ Packed c.pipe (sent ++ c.sent) (ws ++ op.writes) := by
  by_cases hop : op = .flush
  case pos =>
    subst hop
    have hle : written p.current ≤ bufSize := by
      have hroom := h.room
      omega
    rw [Op.writes, List.append_nil, perform, quapiZerocopyPipeFlush]
    split
    case isTrue hpos =>
      -- what has been written goes as one block
      rw [flushOut_done hle]
      exact ⟨_, rfl, packed_switch h hpos⟩
    case isFalse => exact ⟨_, rfl, (List.append_nil sent).symm ▸ h⟩
  case neg =>
    -- where there is room
    have hfits : ∀ {q : ZerocopyPipe} {sent}, Packed q sent ws →
        written q.current + op.size + wordSize < bufSize →
          ∃ q', q.perform op = some ⟨(), [], q'⟩ ∧ Packed q' sent (ws ++ op.writes) := by
      intro q sent hq hroom
      obtain ⟨q', hperform, hpush⟩ := perform_of_room hop hroom
      have hlen := op.length_writes_le
      refine ⟨q', hperform, packed_push hq hpush ?_⟩
      rw [hpush.counter]
      omega
    -- otherwise a block is sent first, and there is room in the other buffer
    by_cases hroom : written p.current + op.size + wordSize < bufSize
    · obtain ⟨p', hperform, hp'⟩ := hfits h hroom
      exact ⟨_, hperform, (List.append_nil sent).symm ▸ hp'⟩
    · have hpos : 0 < written p.current := by omega
      have hempty : written p.switch.current = 0 := written_switch p
      obtain ⟨p', hperform, hp'⟩ := hfits (packed_switch h hpos) (by omega)
      refine ⟨⟨(), [p.block], p'⟩, ?_, hp'⟩
      rw [perform_of_full hop h.room hsize (not_lt.mp hroom), hperform, Option.map_some]

/-- **A run** keeps the writes packed. -/
theorem packed_run {ops : List Op} (h : Packed p sent ws)
    (hsize : ∀ op ∈ ops, op.size + wordSize < bufSize) :
    ∃ c, p.run ops = some c ∧ Packed c.pipe (sent ++ c.sent) (ws ++ ops.flatMap Op.writes) := by
  -- on the uses, with what has been sent and written before them
  induction ops generalizing p sent ws with
  | nil =>
    refine ⟨_, rfl, ?_⟩
    rw [List.append_nil, List.flatMap_nil, List.append_nil]
    exact h
  | cons op ops ih =>
    obtain ⟨c, hc, hpacked⟩ := packed_perform h (hsize op List.mem_cons_self)
    obtain ⟨d, hd, hd'⟩ := ih hpacked fun o ho => hsize o (List.mem_cons_of_mem _ ho)
    refine ⟨{ d with sent := c.sent ++ d.sent }, ?_, ?_⟩
    · rw [run, hc, Option.bind_some, Call.andThen, hd, Option.map_some]
    · rw [List.append_assoc, List.append_assoc] at hd'
      rw [List.flatMap_cons]
      exact hd'

theorem run_concat {ops : List Op} {op : Op} {c d : Call Unit} (hc : p.run ops = some c)
    (hd : c.pipe.perform op = some d) :
    p.run (ops ++ [op]) = some { d with sent := c.sent ++ d.sent } := by
  induction ops generalizing p c with
  | nil =>
    obtain rfl := Option.some.inj hc
    rw [List.nil_append, run, hd, Option.bind_some, Call.andThen, run, Option.map_some,
      List.append_nil]
    rfl
  | cons o ops ih =>
    rw [run] at hc
    obtain ⟨e, he, hrest⟩ := Option.bind_eq_some_iff.mp hc
    obtain ⟨f, hf, rfl⟩ := Option.map_eq_some_iff.mp hrest
    rw [List.cons_append, run, he, Option.bind_some, Call.andThen, ih hf hd, Option.map_some,
      List.append_assoc]

/-- A flush leaves nothing in the current buffer. -/
theorem payload_flush {c : Call Unit} (h : p.perform .flush = some c) :
    payload c.pipe.current = [] := by
  refine List.eq_nil_of_length_eq_zero ((length_payload _).trans ?_)
  rw [perform, quapiZerocopyPipeFlush] at h
  split at h
  case isTrue =>
    rw [flushOut] at h
    split at h
    · exact absurd h (by simp)
    · obtain rfl := Option.some.inj h
      exact written_switch p
  case isFalse hzero =>
    obtain rfl := Option.some.inj h
    exact Nat.eq_zero_of_not_pos hzero

end ZerocopyPipe

/-! ### Reading a block -/

namespace ReadPipe

variable {r : ReadPipe} {blocks : List (List UInt8)} {b : List UInt8} {ws : List (List UInt8)}
  {size : ℕ} {sizes : List ℕ}

/-- The mapping can be read, and its counter is one that a writer sends. -/
structure Mapped (r : ReadPipe) : Prop where
  file : r.file ≠ []
  room : written r.mapping + wordSize < bufSize

/-- **A read inside of the block** asks for nothing. -/
theorem quapiZerocopyPipeRead_of_le (hfile : r.file ≠ [])
    (h : r.readPos + size ≤ written r.mapping) :
    r.quapiZerocopyPipeRead size blocks =
      .ok (some (wordSize + r.readPos), blocks, { r with readPos := r.readPos + size }) := by
  have hsize : sizeT (r.readPos + size) = r.readPos + size :=
    sizeT_of_lt (h.trans_lt (load_lt wordSize r.mapping 0))
  rw [quapiZerocopyPipeRead, if_neg hfile, hsize, if_neg (not_lt.mpr h)]

/-- **A read at the end of the block** asks for the next one, and the assertion holds. -/
theorem quapiZerocopyPipeRead_of_end (hfile : r.file ≠ []) (hend : r.readPos = written r.mapping)
    (hpos : 0 < size) (hsize : r.readPos + size ≤ bufSize + bufSize)
    (hb : written (ofList b) ≤ bufSize) :
    r.quapiZerocopyPipeRead size (b :: blocks) = .ok (some wordSize, blocks, ⟨b, size⟩) := by
  have hbuf := bufSize_eq
  have hnext : sizeT (r.readPos + size) = r.readPos + size := sizeT_of_lt (by omega)
  have hself : sizeT size = size := sizeT_of_lt (by omega)
  rw [quapiZerocopyPipeRead, if_neg hfile, hnext, if_pos (by omega), if_neg (not_not.mpr hend)]
  simp only [flushRead]
  rw [hself]
  exact if_neg (not_lt.mpr hb)

/-- Reads that stay inside of the block. -/
theorem readAll_of_le (blocks : List (List UInt8)) (hr : r.Mapped)
    (h : r.readPos + sizes.sum ≤ written r.mapping) :
    ∃ chunks : List (List UInt8),
      readAll sizes blocks r =
          .ok (chunks.map some, blocks, { r with readPos := r.readPos + sizes.sum }) ∧
        chunks.map List.length = sizes ∧
          chunks.flatten = bytesAt r.mapping (wordSize + r.readPos) sizes.sum := by
  -- on the reads, the position moving along the block
  induction sizes generalizing r with
  | nil => exact ⟨[], rfl, rfl, rfl⟩
  | cons size sizes ih =>
    rw [List.sum_cons] at h
    obtain ⟨chunks, hread, hlen, hflat⟩ := @ih { r with readPos := r.readPos + size }
      ⟨hr.file, hr.room⟩ (by rw [Nat.add_assoc]; exact h)
    refine ⟨bytesAt r.mapping (wordSize + r.readPos) size :: chunks, ?_, ?_, ?_⟩
    · rw [readAll, quapiZerocopyPipeRead_of_le hr.file (by omega)]
      simp only [hread]
      rw [List.sum_cons, ← Nat.add_assoc]
      rfl
    · rw [List.map_cons, hlen, length_bytesAt]
    · rw [List.flatten_cons, hflat, List.sum_cons, bytesAt_add, Nat.add_assoc]
      rfl

/-- The reader is at the end of a block. -/
structure AtEnd (r : ReadPipe) : Prop extends Mapped r where
  atEnd : r.readPos = written r.mapping

theorem atEnd_fdopen : AtEnd fdopen := by
  have hzero : written fdopen.mapping = 0 := by decide +kernel
  exact ⟨⟨by decide, ZerocopyPipe.room_of_eq_zero hzero⟩, hzero.symm⟩

/-- **The reads of a block**, whatever pieces it is read in. -/
theorem readAll_block (blocks : List (List UInt8)) (hr : r.AtEnd) (hb : Carries b ws)
    (h : sizes.sum = ws.flatten.length) :
    ∃ chunks : List (List UInt8),
      readAll sizes (b :: blocks) r = .ok (chunks.map some, blocks, ⟨b, sizes.sum⟩) ∧
        chunks.map List.length = sizes ∧ chunks.flatten = ws.flatten := by
  have hwritten : written (ofList b) = ws.flatten.length := by
    rw [← hb.held, length_payload]
  have hpos := hb.pos
  have hroom := hb.room
  -- the first of the reads that is not empty asks for the block
  induction sizes with
  | nil =>
    rw [List.sum_nil] at h
    omega
  | cons size sizes ih =>
    rw [List.sum_cons] at h
    rcases Nat.eq_zero_or_pos size with rfl | hsize
    · obtain ⟨chunks, hread, hlen, hflat⟩ := ih (by omega)
      refine ⟨[] :: chunks, ?_, ?_, ?_⟩
      · have hstay : ({ r with readPos := r.readPos + 0 } : ReadPipe) = r := rfl
        rw [readAll, quapiZerocopyPipeRead_of_le hr.file hr.atEnd.le]
        simp only [hstay, hread]
        rw [List.sum_cons, Nat.zero_add]
        rfl
      · rw [List.map_cons, hlen, List.length_nil]
      · rw [List.flatten_cons, List.nil_append, hflat]
    · have hmapped : Mapped ⟨b, size⟩ := by
        refine ⟨?_, hroom⟩
        intro hnil
        have hlength := hb.length
        rw [bufSize_eq] at hlength
        rw [show b = [] from hnil] at hlength
        exact absurd hlength (by decide)
      -- the rest of the reads stays inside of the block
      obtain ⟨chunks, hread, hlen, hflat⟩ := readAll_of_le blocks hmapped
        (by change size + sizes.sum ≤ written (ofList b); omega)
      have hprev := hr.room
      have hend := hr.atEnd
      refine ⟨bytesAt (ofList b) wordSize size :: chunks, ?_, ?_, ?_⟩
      · rw [readAll, quapiZerocopyPipeRead_of_end hr.file hr.atEnd hsize (by omega) (by omega)]
        simp only [hread]
        rw [List.sum_cons]
        rfl
      · rw [List.map_cons, hlen, length_bytesAt]
      · rw [List.flatten_cons, hflat, ← hb.held, payload, hwritten, ← h, bytesAt_add]
        rfl

/-- Reads behind reads. -/
theorem readAll_append {sizes' : List ℕ} {blocks₁ blocks₂ blocks₃ : List (List UInt8)}
    {r₁ r₂ r₃ : ReadPipe} {chunks chunks' : List (Option (List UInt8))}
    (h : readAll sizes blocks₁ r₁ = .ok (chunks, blocks₂, r₂))
    (h' : readAll sizes' blocks₂ r₂ = .ok (chunks', blocks₃, r₃)) :
    readAll (sizes ++ sizes') blocks₁ r₁ = .ok (chunks ++ chunks', blocks₃, r₃) := by
  induction sizes generalizing blocks₁ r₁ chunks with
  | nil =>
    simp only [readAll, Except.ok.injEq, Prod.mk.injEq] at h
    obtain ⟨rfl, rfl, rfl⟩ := h
    exact h'
  | cons size sizes ih =>
    rw [readAll] at h
    rw [List.cons_append, readAll]
    cases hread : r₁.quapiZerocopyPipeRead size blocks₁ with
    | error e =>
      rw [hread] at h
      exact absurd h (by simp)
    | ok x =>
      rw [hread] at h
      simp only [] at h
      simp only []
      cases hrest : readAll sizes x.2.1 x.2.2 with
      | error e =>
        rw [hrest] at h
        exact absurd h (by simp)
      | ok y =>
        rw [hrest] at h
        obtain ⟨rest, blocks', r'⟩ := y
        simp only [Except.ok.injEq, Prod.mk.injEq] at h
        obtain ⟨rfl, rfl, rfl⟩ := h
        rw [ih hrest]
        rfl

/-- **The reads of all blocks.** -/
theorem readAll_blocks {groups : List (List (List UInt8))} (hr : r.AtEnd)
    (h : List.Forall₂ Carries blocks groups) {parts : List (List ℕ)}
    (hparts : parts.map List.sum = groups.flatten.map List.length) :
    ∃ chunks : List (List UInt8), ∃ r',
      readAll parts.flatten blocks r = .ok (chunks.map some, [], r') ∧ r'.AtEnd ∧
        chunks.map List.length = parts.flatten ∧ chunks.flatten = groups.flatten.flatten := by
  -- on the blocks: each is read to its end, and then the next is asked for
  induction h generalizing r parts with
  | nil =>
    obtain rfl : parts = [] := List.map_eq_nil_iff.mp hparts
    exact ⟨[], r, rfl, hr, rfl, rfl⟩
  | @cons b ws blocks groups hb h ih =>
    rw [List.flatten_cons, List.map_append] at hparts
    obtain ⟨now, later, rfl, hnow, hlater⟩ := List.map_eq_append_iff.mp hparts
    have hsum : now.flatten.sum = ws.flatten.length := by
      rw [List.sum_flatten, hnow, List.length_flatten]
    obtain ⟨chunks, hread, hlen, hflat⟩ := readAll_block blocks hr hb hsum
    have hnext : AtEnd ⟨b, now.flatten.sum⟩ := by
      have hlength := hb.length
      refine ⟨⟨?_, hb.room⟩, ?_⟩
      · intro hnil
        rw [show b = [] from hnil] at hlength
        exact absurd hlength (by decide)
      · change now.flatten.sum = written (ofList b)
        rw [hsum, ← hb.held, length_payload]
    obtain ⟨chunks', r', hread', hend, hlen', hflat'⟩ := ih hnext hlater
    refine ⟨chunks ++ chunks', r', ?_, hend, ?_, ?_⟩
    · rw [List.flatten_append, List.map_append]
      exact readAll_append hread hread'
    · rw [List.map_append, hlen, hlen', List.flatten_append]
    · rw [List.flatten_append, hflat, hflat', List.flatten_cons, List.flatten_append]

end ReadPipe

/-! ### The stream -/

/-- What is written, in order. -/
def writesOf (ops : List Op) : List (List UInt8) := ops.flatMap Op.writes

/-- **Framing is faithful**: for every sequence of uses, each of which asks for less than a block,
and a flush at the end,

* no use fails, and the counters of the two buffers never exceed them, after no part of the uses;
* the blocks that are sent carry the writes as wholes, in order, except for empty ones behind the
  last block;
* whatever pieces the writes are read in, each read returns as many bytes as it asks for, and
  together they are what has been written; the blocks are used up then. -/
theorem framing_faithful {ops : List Op} (hsize : ∀ op ∈ ops, op.size + wordSize < bufSize)
    (mem : Fin 2 → Memory) :
    (∀ part, part <+: ops → ∃ c, (ZerocopyPipe.fdopen mem).run part = some c ∧
      written c.pipe.current + wordSize ≤ bufSize ∧ written c.pipe.other + wordSize ≤ bufSize) ∧
    ∃ c, (ZerocopyPipe.fdopen mem).run (ops ++ [.flush]) = some c ∧
      (∀ b ∈ c.sent, b.length = bufSize ∧ written (ofList b) + wordSize ≤ bufSize) ∧
      (∃ (groups : List (List (List UInt8))) (last : List (List UInt8)),
        writesOf ops = groups.flatten ++ last ∧ (∀ w ∈ last, w = []) ∧
          c.sent.map (fun b => payload (ofList b)) = groups.map List.flatten) ∧
      ∀ parts : List (List ℕ), parts.map List.sum = (writesOf ops).map List.length →
        ∃ chunks : List (List UInt8), ∃ r,
          ReadPipe.readAll parts.flatten c.sent ReadPipe.fdopen = .ok (chunks.map some, [], r) ∧
            chunks.map List.length = parts.flatten ∧ chunks.flatten = (writesOf ops).flatten := by
  have hstart := ZerocopyPipe.packed_fdopen mem
  constructor
  · intro part hpart
    obtain ⟨c, hc, hpacked⟩ := ZerocopyPipe.packed_run hstart fun op hop =>
      hsize op (hpart.subset hop)
    exact ⟨c, hc, hpacked.room.le, hpacked.other.le⟩
  · obtain ⟨c, hc, hpacked⟩ := ZerocopyPipe.packed_run hstart hsize
    obtain ⟨d, hd, hpacked'⟩ := ZerocopyPipe.packed_perform hpacked
      (ZerocopyPipe.room_of_eq_zero (rfl : Op.flush.size = 0))
    obtain ⟨-, -, groups, last, hwrites, hlast, hsent⟩ := hpacked'
    rw [List.nil_append] at hsent
    rw [List.nil_append, Op.writes, List.append_nil] at hwrites
    have hnone : last.flatten = [] := by
      rw [← hlast]
      exact ZerocopyPipe.payload_flush hd
    refine ⟨_, ZerocopyPipe.run_concat hc hd, ?_, ⟨groups, last, hwrites, ?_, ?_⟩, ?_⟩
    · intro b hb
      obtain ⟨ws, hcarries⟩ := exists_carries hsent hb
      exact ⟨hcarries.length, hcarries.room.le⟩
    · exact List.flatten_eq_nil_iff.mp hnone
    · exact map_payload hsent
    · intro parts hparts
      -- the pieces of what the blocks carry, and those of the empty writes behind it
      change parts.map List.sum = (ops.flatMap Op.writes).map List.length at hparts
      change ∃ (chunks : List (List UInt8)) (r : ReadPipe),
        _ ∧ _ ∧ _ = (ops.flatMap Op.writes).flatten
      rw [hwrites, List.map_append] at hparts
      obtain ⟨now, later, rfl, hnow, hlater⟩ := List.map_eq_append_iff.mp hparts
      obtain ⟨chunks, r, hread, hend, hlen, hflat⟩ :=
        ReadPipe.readAll_blocks ReadPipe.atEnd_fdopen hsent hnow
      have hzero : later.flatten.sum = 0 := by
        rw [List.sum_flatten, hlater, ← List.length_flatten, hnone, List.length_nil]
      obtain ⟨chunks', hread', hlen', hflat'⟩ := ReadPipe.readAll_of_le []
        hend.toMapped (by rw [hzero, Nat.add_zero]; exact hend.atEnd.le)
      refine ⟨chunks ++ chunks', { r with readPos := r.readPos + later.flatten.sum }, ?_, ?_, ?_⟩
      · rw [List.flatten_append, List.map_append]
        exact ReadPipe.readAll_append hread hread'
      · rw [List.map_append, hlen, hlen', List.flatten_append]
      · rw [List.flatten_append, hflat, hflat', hzero, bytesAt_zero, List.append_nil, hwrites,
          List.flatten_append, hnone, List.append_nil]

/-- Two writes in one block, and one in the next; the first of them is read in two pieces. -/
theorem framing_threeWrites : ∃ (c : Call Unit) (chunks : List (List UInt8)) (r : ReadPipe),
    (ZerocopyPipe.fdopen fun _ _ => 0).run [.write 5 1 fun i => UInt8.ofNat i,
        .inPlace 3 2 fun _ => 7, .flush, .write 1 1 fun _ => 9, .flush] = some c ∧
      ReadPipe.readAll [2, 3, 6, 1] c.sent ReadPipe.fdopen = .ok (chunks.map some, [], r) ∧
        chunks.flatten = [0, 1, 2, 3, 4, 7, 7, 7, 7, 7, 7, 9] := by
  have hsize : ∀ op ∈ [Op.write 5 1 fun i => UInt8.ofNat i, .inPlace 3 2 fun _ => 7, .flush,
      .write 1 1 fun _ => 9], op.size + wordSize < bufSize := by decide
  obtain ⟨-, c, hrun, -, -, hread⟩ := framing_faithful hsize fun _ _ => 0
  obtain ⟨chunks, r, hchunks, -, hflat⟩ := hread [[2, 3], [6], [1]] (by decide)
  exact ⟨c, chunks, r, hrun, hchunks, hflat⟩

end QuAPI
