import Dissection.Proofs.Reassembly.Indexed.Run
import Dissection.Proofs.Reassembly.Sharding

/-!
# Shards behind which there are indexed assemblers

A shard runs its share of the operations, that is the insertions for its keys and all advances and
flushes. So the indexed assembler that runs the same share stands for the shard after every run,
and what an operation reports is what these assemblers report, one after the other.
-/

namespace Dissection.ShardedAssembler

variable {κ : Type} {count : Nat}

/-- The operations that a shard takes part in. -/
def share (shardOf : κ → Fin count) (index : Fin count)
    (operations : List (AssemblyOperation κ)) : List (AssemblyOperation κ) :=
  operations.filter fun
    | .insert key _ => decide (shardOf key = index)
    | .advance _ => true
    | .flush => true

theorem share_insert {shardOf : κ → Fin count} {index : Fin count} {key : κ}
    (hkey : shardOf key = index) (fragment : Fragment) :
    share shardOf index [.insert key fragment] = [.insert key fragment] := by
  simp [share, hkey]

theorem share_insert_of_ne {shardOf : κ → Fin count} {index : Fin count} {key : κ}
    (hkey : shardOf key ≠ index) (fragment : Fragment) :
    share shardOf index [.insert key fragment] = [] := by
  simp [share, hkey]

theorem share_cons (shardOf : κ → Fin count) (index : Fin count)
    (operation : AssemblyOperation κ) (rest : List (AssemblyOperation κ)) :
    share shardOf index (operation :: rest) =
      share shardOf index [operation] ++ share shardOf index rest :=
  List.filter_append [operation] rest

variable [DecidableEq κ] (sharded : ShardedAssembler κ count)

theorem shardOf_apply (operation : AssemblyOperation κ) :
    (sharded.apply operation).1.shardOf = sharded.shardOf := by
  cases operation <;> rfl

theorem shard_apply (operation : AssemblyOperation κ) (index : Fin count) :
    (sharded.apply operation).1.shard index =
      (sharded.shard index).after (share sharded.shardOf index [operation]) := by
  cases operation with
  | insert key fragment =>
    refine (shard_insert sharded key fragment index).trans ?_
    by_cases hkey : sharded.shardOf key = index
    · subst hkey
      rw [if_pos rfl, share_insert rfl]
      rfl
    · rw [if_neg (Ne.symm hkey), share_insert_of_ne hkey]
      rfl
  | advance time => exact shard_onAll sharded (·.advance time) index
  | flush => exact shard_onAll sharded (·.flush) index

/-- All shards together report what each of them reports of its share. -/
theorem events_apply (operation : AssemblyOperation κ) :
    (sharded.apply operation).2 =
      (List.finRange count).flatMap (fun index =>
        ((sharded.shard index).calls (share sharded.shardOf index [operation])).flatMap
          AssemblyCall.events) := by
  cases operation with
  | insert key fragment =>
    have honly : ∀ other ∈ List.finRange count, other ≠ sharded.shardOf key →
        ((sharded.shard other).calls (share sharded.shardOf other [.insert key fragment])).flatMap
          AssemblyCall.events = [] := by
      intro other _ hother
      rw [share_insert_of_ne (Ne.symm hother)]
      rfl
    rw [flatMap_eq_of_only (List.nodup_finRange count) (List.mem_finRange _) honly,
      share_insert rfl]
    exact (List.append_nil _).symm
  | advance time =>
    refine (events_onAll sharded (·.advance time)).trans ?_
    exact List.flatMap_congr (fun index _ => (List.append_nil _).symm)
  | flush =>
    refine (events_onAll sharded (·.flush)).trans ?_
    exact List.flatMap_congr (fun index _ => (List.append_nil _).symm)

theorem shardOf_after (operations : List (AssemblyOperation κ)) :
    (sharded.after operations).shardOf = sharded.shardOf := by
  induction operations generalizing sharded with
  | nil => rfl
  | cons operation rest ih => exact (ih _).trans (sharded.shardOf_apply operation)

/-- Over a run a shard does what its share of the run does. -/
theorem shard_after (operations : List (AssemblyOperation κ)) (index : Fin count) :
    (sharded.after operations).shard index =
      (sharded.shard index).after (share sharded.shardOf index operations) := by
  induction operations generalizing sharded with
  | nil => rfl
  | cons operation rest ih =>
    rw [after, ih, shard_apply, shardOf_apply, ← Assembler.after_append, ← share_cons]

/-- The shards may be indexed assemblers. Each of them stands for its shard after every run, and of
one more operation they report together what the shards report. -/
theorem shards_indexed (shardOf : κ → Fin count) (config : AssemblyConfig)
    (operations : List (AssemblyOperation κ)) :
    let sharded := (ofConfig shardOf config).after operations
    let indexed (index : Fin count) : IndexedAssembler κ :=
      (IndexedAssembler.ofConfig config).after (share shardOf index operations)
    (∀ index, (indexed index).Represents (sharded.shard index)) ∧
      ∀ operation, (sharded.apply operation).2 =
        (List.finRange count).flatMap (fun index =>
          ((indexed index).calls (share shardOf index [operation])).flatMap
            AssemblyCall.events) := by
  intro sharded indexed
  have hshard (index : Fin count) : sharded.shard index =
      (Assembler.ofConfig config).after (share shardOf index operations) := by
    rw [shard_after, shard_ofConfig]
    rfl
  have hrepresents (index : Fin count) : (indexed index).Represents (sharded.shard index) := by
    rw [hshard]
    exact IndexedAssembler.represents_after config _
  refine ⟨hrepresents, ?_⟩
  intro operation
  rw [events_apply, shardOf_after]
  refine List.flatMap_congr ?_
  intro index _
  have hregular := Assembler.regular_after config (share shardOf index operations)
  have horder := Assembler.inOrder_after config (share shardOf index operations)
  rw [← hshard] at hregular horder
  rw [((hrepresents index).run hregular horder _).2]
  rfl

end Dissection.ShardedAssembler
