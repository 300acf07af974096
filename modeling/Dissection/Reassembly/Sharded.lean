import Dissection.Reassembly.Assembler

/-!
# Sharded assemblers

Several assemblers share the keys among themselves: a fixed function says which shard looks after a
key. The clock of a shard only moves with its own fragments, and with advances, which all shards
see.
-/

namespace Dissection

structure ShardedAssembler (κ : Type) (count : Nat) where
  /-- The shard that looks after a key. -/
  shardOf : κ → Fin count
  shards : Vector (Assembler κ) count

namespace ShardedAssembler

variable {κ : Type} {count : Nat}

/-- Shards without sequences; the limit on open sequences holds for each of them. -/
def ofConfig (shardOf : κ → Fin count) (config : AssemblyConfig) : ShardedAssembler κ count :=
  ⟨shardOf, Vector.replicate count { config := config }⟩

/-- Applies an operation to every shard; the events of the shards follow each other. -/
def onAll (sharded : ShardedAssembler κ count)
    (operation : Assembler κ → Assembler κ × List (AssemblyEvent κ)) :
    ShardedAssembler κ count × List (AssemblyEvent κ) :=
  ({ sharded with shards := sharded.shards.map (fun shard => (operation shard).1) },
    sharded.shards.toList.flatMap (fun shard => (operation shard).2))

def advance (sharded : ShardedAssembler κ count) (time : Timestamp) :
    ShardedAssembler κ count × List (AssemblyEvent κ) :=
  sharded.onAll (·.advance time)

def flush (sharded : ShardedAssembler κ count) :
    ShardedAssembler κ count × List (AssemblyEvent κ) :=
  sharded.onAll (·.flush)

def insert [DecidableEq κ] (sharded : ShardedAssembler κ count) (key : κ) (fragment : Fragment) :
    ShardedAssembler κ count × List (AssemblyEvent κ) :=
  let shard := sharded.shardOf key
  let (grown, events) := (sharded.shards.get shard).insert key fragment
  ({ sharded with shards := sharded.shards.set shard grown shard.isLt }, events)

def size (sharded : ShardedAssembler κ count) : Nat :=
  sharded.shards.toList.foldl (fun total shard => total + shard.size) 0

def stats (sharded : ShardedAssembler κ count) : AssemblyStats :=
  sharded.shards.toList.foldl (fun total shard => total + shard.stats) {}

end ShardedAssembler

end Dissection
