import Dissection.Header

/-!
# Ports

TCP and UDP headers both begin with the source port and the destination port.
-/

namespace Dissection.Ports

def source : BitField := .ofBytes 0 2
def destination : BitField := .ofBytes 2 2

def ofView (view : HeaderView) : Except FieldError (Nat × Nat) := do
  let source ← view.field Ports.source
  let destination ← view.field Ports.destination
  return (source, destination)

end Dissection.Ports
