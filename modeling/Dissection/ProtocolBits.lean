import Dissection.Protocol

/-!
# Protocol sets as bits

A set of protocols that grows while it is read is kept as a row of words of 64 bits, where the bit
of a protocol stands at its number. The row ends with the word of its greatest member.
-/

namespace Dissection

structure ProtocolBits where
  words : List (BitVec 64)
  deriving DecidableEq

namespace ProtocolBits

def empty : ProtocolBits := ⟨[]⟩

/-- Whether the bit at a number is set. Beyond the last word none is. -/
def bit (set : ProtocolBits) (number : Nat) : Bool :=
  (set.words.getD (number / 64) 0).getLsbD (number % 64)

/-- The word of one protocol: a single bit is set. -/
def flag (id : ProtocolId) : BitVec 64 := 1 <<< (id.index % 64)

/-- Whether the word that has a place for the protocol, if there is one, has its bit set. -/
def contains (set : ProtocolBits) (id : ProtocolId) : Bool :=
  set.words[id.index / 64]?.any (fun word => word &&& flag id != 0)

/-- Sets the bit of a protocol, adding the words that are missing up to it. -/
def insert (set : ProtocolBits) (id : ProtocolId) : ProtocolBits :=
  let words := set.words.rightpad (id.index / 64 + 1) 0
  ⟨words.modify (id.index / 64) (· ||| flag id)⟩

def isEmpty (set : ProtocolBits) : Bool := set.words.all (· = 0)

def size (set : ProtocolBits) : Nat :=
  set.words.foldr (fun word total => (List.range 64).countP word.getLsbD + total) 0

def ofList (ids : List ProtocolId) : ProtocolBits := ids.foldl insert empty

end ProtocolBits

end Dissection
