import SealedContent.Bytes.Fields
import SealedContent.Storage.Basic

/-! # Readers

A reader is a storage and a position in it. `ReaderM` is the type of computations that move one:

* `ReaderM.seek`, `ReaderM.read`, `ReaderM.exactly`, `ReaderM.upTo`, `ReaderM.toEnd` — the moves.
* `ReaderM.number`, `ReaderM.magic`, `ReaderM.skip`, `ReaderM.field` — what parsers read.

A failed read leaves the position where the bytes that were read end. Errors of the storage reach
the caller marked as a reader's (`Error.throughReader`).
-/

namespace SealedContent

/-- A storage and a position in it, which may lie behind its end. -/
structure Reader where
  storage : Storage
  position : Nat := 0
deriving Inhabited

/-- A computation that moves a reader, uses a session and may fail. -/
abbrev ReaderM := ExceptT Error (StateT Reader (StateM Session))

/-- Where a seek counts from. -/
inductive SeekFrom where
  | start (position : Nat)
  | last (distance : Int)
  | current (distance : Int)
deriving Repr

namespace ReaderM

/-- A session computation, with errors as they are. -/
def ofSession {α : Type} (action : SessionM α) : ReaderM α :=
  ExceptT.mk (StateT.lift action.run)

/-- Runs a computation on a reader that is then given up. -/
def run' {α : Type} (action : ReaderM α) (reader : Reader) : SessionM α :=
  ExceptT.mk (StateT.run' (ExceptT.run action) reader)

/-! ## Moves -/

/-- The position. -/
def position : ReaderM Nat := return (← get).position

/-- Moves the position. Positions are 64-bit numbers; one before the start is refused. -/
def seek (target : SeekFrom) : ReaderM Nat := do
  let reader ← get
  let position : Int := match target with
    | .start position => position
    | .last distance => reader.storage.size + distance
    | .current distance => reader.position + distance
  if position < 0 then throw .seekBeforeStart
  let position := position.toNat % UInt64.size
  set { reader with position }
  return position

/-- Moves the position to an offset from the start. -/
def seekTo (offset : Nat) : ReaderM Unit := do
  let _ ← seek (.start offset)

/-- The next `count` bytes, or those that are left; none behind the end. -/
def read (count : Nat) : ReaderM Bytes := do
  let reader ← get
  let size := reader.storage.size
  if size ≤ reader.position then return []
  let count := min count (size - reader.position)
  let bytes ← ExceptT.mk do
    let result ← StateT.lift (reader.storage.read reader.position count).run
    return result.mapError Error.throughReader
  set { reader with position := reader.position + count }
  return bytes

/-- The next `count` bytes, which must all be there. -/
def exactly (count : Nat) : ReaderM Bytes := do
  let bytes ← read count
  if bytes.length < count then throw .endOfReader
  return bytes

/-- The sizes of the pieces in which `count` bytes are read into a growing buffer that holds `held`
    bytes: at first 32 bytes, then as many as it holds. -/
def pieces (held count : Nat) : List Nat :=
  if _h : count = 0 then []
  else
    let piece := min (max held 32) count
    piece :: pieces (held + piece) (count - piece)
termination_by count
decreasing_by omega

/-- The next `limit` bytes, or those that are left, piece by piece. -/
def upTo (limit : Nat) : ReaderM Bytes := do
  let reader ← get
  let count := min limit (reader.storage.size - reader.position)
  return (← (pieces 0 count).mapM read).flatten

def toEnd : ReaderM Bytes := do
  let reader ← get
  upTo (reader.storage.size - reader.position)

/-! ## Fields -/

/-- The little-endian number in the next `width` bytes. -/
def number (width : Nat) : ReaderM Nat := return LittleEndian.decode (← exactly width)

def block : ReaderM Aes.Block := return Aes.Block.ofBytes (← exactly 16)

def skip (count : Nat) : ReaderM Unit := do
  let _ ← exactly count

def magic (expected : String) : ReaderM Unit := do
  let bytes ← exactly expected.length
  if bytes ≠ .ofAscii expected then throw .badMagic

/-- A field whose length the input itself states; an input that ends early is truncated. -/
def field (length : Nat) : ReaderM Bytes := do
  let bytes ← upTo length
  if bytes.length ≠ length then throw .truncated
  return bytes

/-- Reads `count` items one after the other. -/
def repeated {α : Type} : (count : Nat) → (item : ReaderM α) → ReaderM (List α)
  | 0, _ => return []
  | count + 1, item => return (← item) :: (← repeated count item)

end ReaderM

end SealedContent
