/-!
# Flow fields

The bytes of a header that tell flows apart. Some are the same in both directions, others are a
pair of a source and a destination that change places in a reply.
-/

namespace Dissection

inductive FlowField where
  /-- The `length` bytes at `offset`, the same in both directions. -/
  | fixed (offset length : Nat)
  /-- The `length` bytes at `source` and at `destination`, exchanged in the other direction. -/
  | reversible (source destination length : Nat)
  deriving DecidableEq

end Dissection
