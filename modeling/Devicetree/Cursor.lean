import Devicetree.Word

/-!
# Reservations

A cursor hands out consecutive aligned intervals of a block that need not exist yet. The same
requests get the same offsets from every cursor, so a run without a block measures what a run
with one will use.
-/

namespace Devicetree

/-- The bytes handed out so far, padding included. -/
structure Cursor where
  offset : UInt64
  deriving DecidableEq

namespace Cursor

def start : Cursor := ⟨0⟩

/-- The offset of `size` bytes at a multiple of `align`, a power of two, and the cursor past
them. -/
def reserve (c : Cursor) (size align : UInt64) : UInt64 × Cursor :=
  let off := Word.alignUp c.offset align
  (off, ⟨off + size⟩)

end Cursor
end Devicetree
