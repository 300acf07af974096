import Dissection.Bytes
import Dissection.Time

/-!
# Fragments

A fragment is a run of bytes of a datagram, with or without the bytes themselves. The last fragment
of a datagram says that no more follow, and so tells how long the datagram is. Fragments cover a
datagram when, in order of their offsets, each starts where the one before it ends.
-/

namespace Dissection

structure Fragment where
  /-- The offset of the first byte in the datagram. -/
  offset : Nat
  length : Nat
  /-- Whether bytes of the datagram follow this fragment. -/
  more : Bool
  timestamp : Timestamp
  payload : Option Bytes
  deriving DecidableEq

namespace Fragment

def ofPayload (offset : Nat) (payload : Bytes) (more : Bool) (timestamp : Timestamp) : Fragment :=
  ⟨offset, payload.length, more, timestamp, some payload⟩

def ofLength (offset length : Nat) (more : Bool) (timestamp : Timestamp) : Fragment :=
  ⟨offset, length, more, timestamp, none⟩

/-- The offset of the first byte after the fragment. The sum is not bounded here; a word of 64 bits
holds it as long as `offset + length < 2 ^ 64`, and only a fragment that claims to end behind that
could tell. -/
def stop (fragment : Fragment) : Nat := fragment.offset + fragment.length

/-- Each of the two starts before the other ends. -/
def Overlaps (a b : Fragment) : Prop := a.offset < b.stop ∧ b.offset < a.stop

instance (a b : Fragment) : Decidable (a.Overlaps b) := inferInstanceAs (Decidable (_ ∧ _))

theorem Overlaps.symm {a b : Fragment} (h : a.Overlaps b) : b.Overlaps a := ⟨h.2, h.1⟩

/-- The two are the same run of bytes of the datagram. -/
def SameRange (a b : Fragment) : Prop := a.offset = b.offset ∧ a.length = b.length

instance (a b : Fragment) : Decidable (a.SameRange b) := inferInstanceAs (Decidable (_ ∧ _))

/-- Puts a fragment behind those that start no later. -/
def place (fragment : Fragment) : List Fragment → List Fragment
  | [] => [fragment]
  | other :: rest =>
    if fragment.offset < other.offset then fragment :: other :: rest
    else other :: place fragment rest

theorem mem_place {fragment x : Fragment} {fragments : List Fragment} :
    x ∈ place fragment fragments ↔ x = fragment ∨ x ∈ fragments := by
  induction fragments with
  | nil => simp [place]
  | cons other rest ih =>
    by_cases h : fragment.offset < other.offset
    · simp [place, h]
    · simp only [place, h, if_false, List.mem_cons, ih]
      exact or_left_comm

/-- Starting at `start`, every fragment begins where the one before it ends, and the last ends at
`stop`. -/
def Tile (start stop : Nat) : List Fragment → Prop
  | [] => start = stop
  | fragment :: rest => fragment.offset = start ∧ Tile fragment.stop stop rest

instance : ∀ (start stop : Nat) (fragments : List Fragment), Decidable (Tile start stop fragments)
  | start, stop, [] => inferInstanceAs (Decidable (start = stop))
  | start, stop, fragment :: rest =>
    have := instDecidableTile fragment.stop stop rest
    inferInstanceAs (Decidable (fragment.offset = start ∧ Tile fragment.stop stop rest))

end Fragment

end Dissection
