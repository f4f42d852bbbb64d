import LuaGraph.Error

/-!
# Buffers

A buffer takes bytes up to its capacity. What does not fit is lost, and losing any is a failure.

This is the slice of bytes that `to_writer`, `to_writer_with_options` and `dump_to` can be given.

Out of scope: writers of other kinds, and how they fail.
-/

namespace LuaGraph

/-- Bytes that were written, and how many there may be. -/
structure Buffer where
  capacity : Nat
  bytes : ByteArray := .empty

namespace Buffer

/-- Writes as much of a text as fits, and fails if that is not all of it. -/
def write (b : Buffer) (text : String) : Except Error Unit × Buffer :=
  let room := b.capacity - b.bytes.size
  let bytes := b.bytes ++ text.toUTF8.extract 0 room
  if text.utf8ByteSize ≤ room then (.ok (), { b with bytes })
  else (.error (.transfer .bufferFull), { b with bytes })

/-- The text in a buffer. A character that was cut off is replaced by a mark. -/
def text (b : Buffer) : String :=
  let keep (n : Nat) : Option String := String.fromUTF8? (b.bytes.extract 0 (b.bytes.size - n))
  match keep 0 with
  | some s => s
  | none => (((keep 1).or (keep 2)).or (keep 3)).getD "" ++ "\ufffd"

end Buffer

end LuaGraph
