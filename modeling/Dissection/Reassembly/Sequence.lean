import Dissection.IdleOrder
import Dissection.Reassembly.Fragment

/-!
# Fragment sequences

The fragments of one datagram, in order of their offsets. A fragment with the range of one that is
there already is a duplicate and changes nothing. Fragments that overlap otherwise, or that disagree
about the length of the datagram, make the sequence ambiguous for good: it never completes.
-/

namespace Dissection

inductive SequenceStatus where
  | collecting
  | complete
  | timedOut
  deriving DecidableEq

structure FragmentSequence (κ : Type) where
  key : κ
  fragments : List Fragment
  /-- The length of the datagram, once a fragment has told it. -/
  totalLength : Option Nat
  status : SequenceStatus
  ambiguous : Bool
  firstFragmentAt : Timestamp
  lastFragmentAt : Timestamp
  /-- How many sequences were opened before this one. -/
  serial : Nat
  deriving DecidableEq

variable {κ : Type}

instance : Idle (FragmentSequence κ) :=
  ⟨fun sequence => sequence.lastFragmentAt, fun sequence => sequence.serial⟩

inductive Placement (κ : Type) where
  | duplicate
  | placed (sequence : FragmentSequence κ) (overlapping : Bool)

namespace FragmentSequence

def start (key : κ) (time : Timestamp) (serial : Nat) : FragmentSequence κ :=
  ⟨key, [], none, .collecting, false, time, time, serial⟩

def deadline (sequence : FragmentSequence κ) (window : Duration) : Timestamp :=
  sequence.lastFragmentAt.after window

def received (sequence : FragmentSequence κ) : Nat :=
  sequence.fragments.foldl (fun total fragment => total + fragment.length) 0

def retains (sequence : FragmentSequence κ) (fragment : Fragment) : Bool :=
  sequence.fragments.any (fun other => other.SameRange fragment)

def isOverlappedBy (sequence : FragmentSequence κ) (fragment : Fragment) : Bool :=
  sequence.fragments.any (fun other => other.Overlaps fragment)

/-- The length of the datagram after a fragment: the first fragment without a successor tells it. -/
def totalAfter (sequence : FragmentSequence κ) (fragment : Fragment) : Option Nat :=
  if fragment.more then sequence.totalLength else sequence.totalLength.or (some fragment.stop)

/-- Whether a fragment contradicts the length of the datagram: it is another last one with another
end, or it ends after the datagram. -/
def isContradictedBy (sequence : FragmentSequence κ) (fragment : Fragment) : Bool :=
  (!fragment.more && sequence.totalLength.any (· != fragment.stop)) ||
    (sequence.totalAfter fragment).any (fun total => decide (total < fragment.stop))

def place (sequence : FragmentSequence κ) (fragment : Fragment) : Placement κ :=
  if sequence.retains fragment then .duplicate
  else
    let overlapping := sequence.isOverlappedBy fragment
    .placed
      { sequence with
        fragments := fragment.place sequence.fragments
        totalLength := sequence.totalAfter fragment
        ambiguous := sequence.ambiguous || overlapping || sequence.isContradictedBy fragment
        lastFragmentAt := max sequence.lastFragmentAt fragment.timestamp }
      overlapping

/-- Whether the fragments are the whole datagram, each byte exactly once. -/
def IsCovered (sequence : FragmentSequence κ) : Prop :=
  sequence.ambiguous = false ∧
    ∃ total, sequence.totalLength = some total ∧ Fragment.Tile 0 total sequence.fragments

instance (sequence : FragmentSequence κ) : Decidable sequence.IsCovered :=
  match h : sequence.totalLength with
  | none => isFalse (fun hcovered => by
      obtain ⟨_, total, htotal, _⟩ := hcovered
      rw [h] at htotal
      cases htotal)
  | some total =>
    if hparts : sequence.ambiguous = false ∧ Fragment.Tile 0 total sequence.fragments then
      isTrue ⟨hparts.1, total, h, hparts.2⟩
    else isFalse (fun hcovered => by
      obtain ⟨hclear, total', htotal, htile⟩ := hcovered
      rw [h] at htotal
      cases htotal
      exact hparts ⟨hclear, htile⟩)

/-- The datagram of a complete sequence all of whose bytes are known. -/
def reassemble (sequence : FragmentSequence κ) : Option Bytes :=
  if sequence.status = .complete then
    (sequence.fragments.mapM Fragment.payload).map List.flatten
  else none

end FragmentSequence

end Dissection
