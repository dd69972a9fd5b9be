import QuAPI.Bytes
import Mathlib.Data.Int.DivMod
import Mathlib.Tactic.DeriveFintype

/-!
# Zero-copy pipes

With zero-copy pipes, the streams between the library and the runtime are not `FILE`s. A writer has
two buffers and fills them in turn (`QuAPI.ZerocopyPipe`). The first word of a buffer is the number
of bytes that have been written behind it. A buffer is sent as one block, and always as a whole. A
reader maps the block it has received last, and has a position in it (`QuAPI.ReadPipe`).

Bytes are either copied into the buffer, or put there by the caller. For the latter,
`quapi_zerocopy_pipe_prepare_write` returns a pointer into the buffer, and the write that gets this
very pointer copies nothing.

In this file a block is sent and received as a whole. How the kernel moves it is the subject of
`QuAPI.Transfer`.
-/

namespace QuAPI

open Bytes

/-! ### Sizes -/

/-- `buf_size`. -/
def bufSize : ℕ := 65536

/-- `sizeof(size_t)`. -/
def wordSize : ℕ := 8

/-- A `size_t` that has been computed. -/
def sizeT (n : ℕ) : ℕ := n % 18446744073709551616

/-- A `size_t` that is returned as an `ssize_t`. -/
def ssizeT (n : ℕ) : ℤ := (n : ℤ).bmod 18446744073709551616

theorem bufSize_eq : bufSize = 65536 := rfl

theorem sizeT_of_lt {n : ℕ} (h : n < 18446744073709551616) : sizeT n = n := Nat.mod_eq_of_lt h

/-- What computes in a `size_t` and fits into a buffer has not wrapped around. -/
theorem sizeT_of_le {n : ℕ} (h : n ≤ bufSize) : sizeT n = n :=
  sizeT_of_lt (h.trans_lt (by rw [bufSize_eq]; norm_num))

/-! ### Buffers -/

/-- The counter at the start of a buffer. -/
def written (m : Memory) : ℕ := load wordSize m 0

/-- The counter is set. -/
def setWritten (m : Memory) (n : ℕ) : Memory := store wordSize m 0 n

/-- What has been written into a buffer. -/
def payload (m : Memory) : List UInt8 := bytesAt m wordSize (written m)

theorem written_setWritten (m : Memory) (n : ℕ) : written (setWritten m n) = sizeT n := by
  rw [written, setWritten, load_store]
  rfl

theorem bytesAt_setWritten (m : Memory) (n : ℕ) {off len : ℕ} (h : wordSize ≤ off) :
    bytesAt (setWritten m n) off len = bytesAt m off len := by
  rw [setWritten, store, bytesAt_copy_of_ge]
  exact (Nat.zero_add wordSize).le.trans h

/-- The counter and the bytes behind it are all that is read. -/
theorem written_congr {m m' : Memory} (h : bytesAt m 0 wordSize = bytesAt m' 0 wordSize) :
    written m = written m' := load_congr h

theorem length_payload (m : Memory) : (payload m).length = written m := length_bytesAt _ _ _

/-! ### The writing end -/

/-- A pointer into one of the two buffers. -/
structure Position where
  buf : Fin 2
  offset : ℕ
deriving DecidableEq

/-- `quapi_zerocopy_pipe`, as it is used for writing. -/
structure ZerocopyPipe where
  currentBuf : Fin 2
  buf : Fin 2 → Memory
  /-- `NULL` until something is prepared. -/
  prepared : Option Position

/-- What the loop over `vmsplice` comes to. -/
inductive Transfer where
  /-- Everything is in the pipe. -/
  | done
  /-- The reading end is closed. -/
  | epipe
  | failed
deriving DecidableEq

/-- What a call of the writer does: what it returns, the blocks that it has sent, and the pipe. -/
structure Call (ρ : Type) where
  ret : ρ
  sent : List (List UInt8)
  pipe : ZerocopyPipe

/-- What comes behind a call. -/
def Call.andThen {ρ σ : Type} (c : Call ρ) (k : ρ → ZerocopyPipe → Option (Call σ)) :
    Option (Call σ) :=
  (k c.ret c.pipe).map fun d => { d with sent := c.sent ++ d.sent }

/-- Where the bytes of a write come from. -/
inductive Data where
  /-- A pointer that has been prepared. -/
  | inPipe (p : Position)
  /-- Memory of the caller. -/
  | outside (m : Memory)

namespace ZerocopyPipe

/-- `quapi_zerocopy_pipe_fdopen`, with what is in the buffers that have been allocated. -/
def fdopen (mem : Fin 2 → Memory) : ZerocopyPipe := ⟨0, fun i => setWritten (mem i) 0, none⟩

variable (p : ZerocopyPipe)

/-- The buffer that is being filled. -/
def current : Memory := p.buf p.currentBuf

/-- The other buffer. -/
def other : Memory := p.buf (p.currentBuf + 1)

/-- The current buffer is changed. -/
def setCurrent (m : Memory) : ZerocopyPipe :=
  { p with buf := Function.update p.buf p.currentBuf m }

/-- The block that the current buffer is. -/
def block : List UInt8 := bytesAt p.current 0 bufSize

/-- The end of `flush_out`: the other buffer is empty, and it is the current one. -/
def switch : ZerocopyPipe :=
  let p := { p with currentBuf := p.currentBuf + 1 }
  p.setCurrent (setWritten p.current 0)

/-- `flush_out`. There is no result where it exits. -/
def flushOut (t : Transfer) : Option (Call ℤ) :=
  if bufSize < written p.current then none
  else
    match t with
    -- the whole buffer goes, however little has been written into it
    | .done => some ⟨bufSize, [p.block], p.switch⟩
    | .epipe => some ⟨-2, [], p⟩
    | .failed => some ⟨-1, [], p⟩

/-- `quapi_zerocopy_pipe_flush`. -/
def quapiZerocopyPipeFlush (t : Transfer) : Option (Call Unit) :=
  if 0 < written p.current then
    (p.flushOut t).bind fun c => c.andThen fun _ p => some ⟨(), [], p⟩
  else some ⟨(), [], p⟩

/-- `ensure_space_free`. -/
def ensureSpaceFree (effectiveSize : ℕ) (t : Transfer) : Option (Call Bool) :=
  -- a buffer is never filled to its last byte
  if bufSize ≤ sizeT (written p.current + effectiveSize + wordSize) then
    (p.flushOut t).bind fun c => c.andThen fun s p => some ⟨decide (s = bufSize), [], p⟩
  else some ⟨true, [], p⟩

/-- The memory behind a pointer. -/
def memoryAt : Data → Memory
  | .inPipe pos => fun i => p.buf pos.buf (pos.offset + i)
  | .outside m => m

/-- `data == pipe->prepared`. -/
def isPrepared : Data → Bool
  | .inPipe pos => p.prepared = some pos
  | .outside _ => false

/-- The bytes of a write that has room, and the counter. There is no result where the bytes do not
stay inside of the buffer. -/
def put (data : Data) (effectiveSize : ℕ) : Option ZerocopyPipe :=
  let n := written p.current
  let q :=
    if p.isPrepared data then
      -- the bytes are there already, and only the pointer moves on
      some { p with
        prepared := p.prepared.map fun pos => { pos with offset := pos.offset + effectiveSize } }
    -- `memcpy`
    else if wordSize + n + effectiveSize ≤ bufSize then
      some (p.setCurrent (copy p.current (wordSize + n) (p.memoryAt data) effectiveSize))
    else none
  q.map fun q => q.setCurrent (setWritten q.current (n + effectiveSize))

/-- `quapi_zerocopy_pipe_write`. -/
def quapiZerocopyPipeWrite (data : Data) (size count : ℕ) (t : Transfer) : Option (Call ℤ) :=
  let effectiveSize := sizeT (size * count)
  (p.ensureSpaceFree effectiveSize t).bind fun c => c.andThen fun free p =>
    if free then (p.put data effectiveSize).map fun p => ⟨ssizeT count, [], p⟩
    else some ⟨-1, [], p⟩

/-- `quapi_zerocopy_pipe_prepare_write`. -/
def quapiZerocopyPipePrepareWrite (size count : ℕ) (t : Transfer) :
    Option (Call (Option Position)) :=
  let effectiveSize := sizeT (size * count)
  (p.ensureSpaceFree effectiveSize t).bind fun c => c.andThen fun free p =>
    if free then
      let pos : Position := ⟨p.currentBuf, wordSize + written p.current⟩
      some ⟨some pos, [], { p with prepared := some pos }⟩
    else some ⟨none, [], p⟩

/-- The caller puts `n` bytes where a pointer points. -/
def fill (pos : Position) (m : Memory) (n : ℕ) : Option ZerocopyPipe :=
  if pos.offset + n ≤ bufSize then
    some { p with buf := Function.update p.buf pos.buf (copy (p.buf pos.buf) pos.offset m n) }
  else none

end ZerocopyPipe

/-! ### The reading end -/

/-- `quapi_zerocopy_pipe`, as it is used for reading: what is in the memory file that is mapped at
`buf[0]`, and the position. -/
structure ReadPipe where
  file : List UInt8
  readPos : ℕ
deriving DecidableEq

/-- How the reader can end. -/
inductive ReadError where
  /-- `assert(pipe->read_pos - *written == 0)`. -/
  | assertion
  /-- More bytes are announced than a buffer has. -/
  | exit
  /-- The memory file is empty, and its mapping is read. -/
  | sigbus
deriving DecidableEq

namespace ReadPipe

/-- `quapi_zerocopy_pipe_fdopen`: a counter that is 0 is written into the memory file. -/
def fdopen : ReadPipe := ⟨bytesAt (setWritten (fun _ => 0) 0) 0 wordSize, 0⟩

/-- `buf[0]`. -/
def mapping (r : ReadPipe) : Memory := ofList r.file

/-- `flush_read`, from the blocks that are there to be received. The file is truncated even where
there is none. -/
def flushRead (blocks : List (List UInt8)) (r : ReadPipe) :
    Bool × List (List UInt8) × ReadPipe :=
  match blocks with
  | [] => (false, [], { r with file := [] })
  | b :: bs => (true, bs, { r with file := b })

/-- `quapi_zerocopy_pipe_read`: the offset of the pointer it returns, if it is not `NULL`. -/
def quapiZerocopyPipeRead (size : ℕ) (blocks : List (List UInt8)) (r : ReadPipe) :
    Except ReadError (Option ℕ × List (List UInt8) × ReadPipe) :=
  if r.file = [] then .error .sigbus
  else if written r.mapping < sizeT (r.readPos + size) then
    -- a new block is asked for when the old one has been read to its end
    if r.readPos ≠ written r.mapping then .error .assertion
    else
      match r.flushRead blocks with
      | (false, blocks, r) => .ok (none, blocks, r)
      | (true, blocks, r) =>
        if bufSize < written r.mapping then .error .exit
        else .ok (some wordSize, blocks, { r with readPos := sizeT size })
  else
    .ok (some (wordSize + r.readPos), blocks, { r with readPos := sizeT (r.readPos + size) })

/-- A sequence of reads: for each of them the bytes that its caller finds, if the pointer is not
`NULL`. -/
def readAll : List ℕ → List (List UInt8) → ReadPipe →
    Except ReadError (List (Option (List UInt8)) × List (List UInt8) × ReadPipe)
  | [], blocks, r => .ok ([], blocks, r)
  | size :: sizes, blocks, r =>
    match r.quapiZerocopyPipeRead size blocks with
    | .error e => .error e
    | .ok (data, blocks, r) =>
      match readAll sizes blocks r with
      | .error e => .error e
      | .ok (rest, blocks, r') => .ok (data.map (bytesAt r.mapping · size) :: rest, blocks, r')

end ReadPipe

end QuAPI
