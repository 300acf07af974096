import Dissection.Header

/-!
# VLAN tags

The tag of IEEE 802.1Q and 802.1ad, as it follows the EtherType that announces it.
-/

namespace Dissection.Vlan

def headerLength : Nat := 4

def priority : BitField := ⟨0, 3, .big⟩
def dropEligible : BitField := ⟨3, 1, .big⟩
def vlanId : BitField := ⟨4, 12, .big⟩
def etherType : BitField := .ofBytes 2 2

structure Tag where
  priority : Nat
  dropEligible : Bool
  vlanId : Nat
  etherType : Nat
  deriving DecidableEq

def Tag.ofView (view : HeaderView) : Except FieldError Tag := do
  let priority ← view.field Vlan.priority
  let dropEligible ← view.field Vlan.dropEligible
  let vlanId ← view.field Vlan.vlanId
  let etherType ← view.field Vlan.etherType
  return ⟨priority, dropEligible == 1, vlanId, etherType⟩

end Dissection.Vlan
