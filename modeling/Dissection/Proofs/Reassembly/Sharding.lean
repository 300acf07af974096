import Dissection.Proofs.Reassembly.Isolation
import Dissection.Reassembly.Sharded
import Mathlib.Algebra.BigOperators.Fin

/-!
# Sharding shows nothing

Shards that all see the time of every fragment before it comes do together what one assembler
does: every key sees the same events, the same keys have open sequences, and the counters add up.
The shard of a key and the single assembler show the key the same, and a clock that stands at the
time of a fragment already makes the advance of the insertion an empty one.
-/

namespace Dissection

attribute [ext] AssemblyStats

namespace AssemblyStats

instance : Zero AssemblyStats := ⟨{}⟩

instance : AddCommMonoid AssemblyStats where
  nsmul := nsmulRec
  add_assoc a b c := by ext <;> exact Nat.add_assoc _ _ _
  add_comm a b := by ext <;> exact Nat.add_comm _ _
  zero_add a := by ext <;> exact Nat.zero_add _
  add_zero a := by ext <;> exact Nat.add_zero _

def timeouts (count : Nat) : AssemblyStats := { timedOut := count }

theorem timeouts_zero : timeouts 0 = 0 := rfl

theorem timeouts_add (m n : Nat) : timeouts (m + n) = timeouts m + timeouts n := by
  ext <;> rfl

theorem timeouts_sum {ι : Type} (indices : Finset ι) (count : ι → Nat) :
    timeouts (∑ i ∈ indices, count i) = ∑ i ∈ indices, timeouts (count i) :=
  map_sum (AddMonoidHom.mk ⟨timeouts, timeouts_zero⟩ timeouts_add) count indices

end AssemblyStats

theorem Clock.observe_observe (clock : Clock) (time : Timestamp) :
    (clock.observe time).observe time = clock.observe time := by
  refine congrArg Clock.mk (Timestamp.ext ?_)
  rw [now_observe, Timestamp.micros_max, Timestamp.micros_max]
  exact Nat.max_eq_left (Nat.le_max_right _ _)

theorem dropWhile_append_dropWhile {α : Type} {p : α → Bool} (front : List α) {back : List α}
    (hback : ∀ thing ∈ back, p thing = false) :
    (front.dropWhile p ++ back).dropWhile p = front.dropWhile p ++ back := by
  induction front with
  | nil =>
    cases back with
    | nil => rfl
    | cons first rest =>
      have hfirst := hback first List.mem_cons_self
      exact List.dropWhile_cons_of_neg (by simp [hfirst])
  | cons first rest ih =>
    by_cases hfirst : p first = true
    · rw [List.dropWhile_cons_of_pos hfirst, ih]
    · rw [List.dropWhile_cons_of_neg hfirst, List.cons_append,
        List.dropWhile_cons_of_neg hfirst]

variable {κ : Type}

open AssemblyEvent (ofKey seenBy)

/-- What adding a fragment to the sequence counts. -/
def FragmentSequence.tally (sequence : FragmentSequence κ) (fragment : Fragment) :
    AssemblyStats :=
  if sequence.retains fragment then { fragments := 1, duplicates := 1 }
  else
    { fragments := 1
      overlaps := if sequence.isOverlappedBy fragment then 1 else 0
      completed := if (sequence.extended fragment).IsCovered then 1 else 0 }

namespace Assembler

theorem advance_of_idle {assembler : Assembler κ} {time : Timestamp}
    (hclock : assembler.clock.observe time = assembler.clock)
    (hremembered : assembler.closings.dropWhile
        (fun closing => isExpired assembler.now closing.time assembler.config.window) =
      assembler.closings)
    (hnone : Idle.overdue assembler.now assembler.config.window assembler.sequences = []) :
    assembler.advance time = (assembler, []) := by
  have hall := Idle.overdue_append_current assembler.now assembler.config.window
    assembler.sequences
  rw [hnone, List.nil_append] at hall
  have hnow : assembler.clock.now = assembler.now := rfl
  simp only [Assembler.advance, hclock, hnow, hremembered, hnone, hall, timeOut, close,
    List.map_nil, List.append_nil, List.length_nil, Nat.add_zero]

/-- Nothing is left to do for an advance to the time of the one before it. -/
theorem advance_advance (assembler : Assembler κ) (time : Timestamp) :
    (assembler.advance time).1.advance time = ((assembler.advance time).1, []) := by
  refine advance_of_idle (assembler.clock.observe_observe time) ?_ ?_
  · rw [closings_advance, now_advance, config_advance]
    refine dropWhile_append_dropWhile assembler.closings ?_
    intro closing hclosing
    obtain ⟨sequence, _, rfl⟩ := List.mem_map.1 hclosing
    exact isExpired_self _ _
  · exact Idle.overdue_current _ _ _

theorem stats_advance (assembler : Assembler κ) (time : Timestamp) :
    (assembler.advance time).1.stats =
      assembler.stats + .timeouts (assembler.advance time).2.length := by
  rw [events_advance, List.length_map]
  rfl

theorem stats_flush (assembler : Assembler κ) :
    assembler.flush.1.stats = assembler.stats + .timeouts assembler.flush.2.length := by
  have hlength : assembler.flush.2.length = (inOpeningOrder assembler.sequences).length :=
    List.length_map _
  rw [hlength]
  rfl

variable [DecidableEq κ]

def openingTally (assembler : Assembler κ) (key : κ) : AssemblyStats :=
  if (assembler.get? key).isSome then 0
  else
    { sequencesStarted := 1
      lateFragments := if assembler.isRecentlyClosed key then 1 else 0 }

theorem stats_ensureOpen {assembler : Assembler κ} {key : κ} (hroom : assembler.HasRoomFor key)
    (time : Timestamp) :
    (assembler.ensureOpen key time).1.stats = assembler.stats + assembler.openingTally key := by
  cases hopen : assembler.get? key with
  | some sequence =>
    rw [ensureOpen_of_open hopen, openingTally, hopen]
    exact (add_zero _).symm
  | none =>
    rw [ensureOpen_of_closed hopen, openSequence, hroom.makeRoom_eq hopen, openingTally, hopen]
    rfl

theorem stats_addFragment {assembler : Assembler κ} {key : κ} {sequence : FragmentSequence κ}
    (hopen : assembler.get? key = some sequence) (fragment : Fragment) :
    (assembler.addFragment key fragment).1.stats =
      assembler.stats + sequence.tally fragment := by
  cases hretains : sequence.retains fragment with
  | true =>
    simp only [addFragment, hopen, FragmentSequence.place_of_retains hretains,
      FragmentSequence.tally, hretains, if_true]
    rfl
  | false =>
    by_cases hoverlapped : sequence.isOverlappedBy fragment = true <;>
      by_cases hcovered : (sequence.extended fragment).IsCovered <;>
        simp only [addFragment, hopen, FragmentSequence.place_of_not_retains hretains, settle,
          FragmentSequence.tally, hretains, hcovered, hoverlapped, if_true, if_false,
          Bool.false_eq_true] <;>
        rfl

section Alike

variable {key : κ} {a b : Assembler κ}

theorem isRecentlyClosed_eq (assembler : Assembler κ) (key : κ) :
    assembler.isRecentlyClosed key = (assembler.closingsOf key).any (·.key = key) := by
  rw [closingsOf, List.any_filter, isRecentlyClosed]
  simp

theorem Alike.isSome_eq (h : Alike key a b) : (a.get? key).isSome = (b.get? key).isSome := by
  have hshown := congrArg Option.isSome h.sequence_eq
  rwa [shown?, shown?, Option.isSome_map, Option.isSome_map] at hshown

theorem mem_keys_iff {assembler : Assembler κ} {key : κ} :
    key ∈ assembler.sequences.map FragmentSequence.key ↔
      (assembler.get? key).isSome = true := by
  simp [get?]

theorem Alike.openingTally_eq (h : Alike key a b) : a.openingTally key = b.openingTally key := by
  rw [openingTally, openingTally, isRecentlyClosed_eq, isRecentlyClosed_eq, h.closings_eq,
    h.isSome_eq]

/-- An insertion for the key counts the same in both. -/
theorem Alike.stats_insert (h : Alike key a b) {fragment : Fragment}
    (ha : a.advance fragment.timestamp = (a, [])) (hb : b.advance fragment.timestamp = (b, []))
    (haroom : a.HasRoomFor key) (hbroom : b.HasRoomFor key) :
    ∃ tally, (a.insert key fragment).1.stats = a.stats + tally ∧
      (b.insert key fragment).1.stats = b.stats + tally := by
  have hready := (h.ensureOpen fragment.timestamp).assemblers
  have haopen := a.get?_ready key fragment.timestamp
  have hbopen := b.get?_ready key fragment.timestamp
  have htarget : (a.target key fragment.timestamp).tally (a.config.stored fragment) =
      (b.target key fragment.timestamp).tally (a.config.stored fragment) := by
    have hshown := hready.sequence_eq
    rw [ready, ha] at haopen
    rw [ready, hb] at hbopen
    rw [shown?, shown?, haopen, hbopen] at hshown
    exact congrArg (fun sequence => sequence.tally (a.config.stored fragment))
      (Option.some.inj hshown)
  refine ⟨a.openingTally key + (a.target key fragment.timestamp).tally (a.config.stored fragment),
    ?_, ?_⟩
  · rw [insert_eq, stats_addFragment haopen, ready, ha, stats_ensureOpen haroom, add_assoc]
  · rw [insert_eq, ← h.config_eq, stats_addFragment hbopen, ready, hb, stats_ensureOpen hbroom,
      add_assoc, h.openingTally_eq, htarget]

/-- An insertion for another key is nothing to the key when the clock stands at its time. -/
theorem alike_insert_of_idle {other : κ} (hne : other ≠ key) (ha : a.Regular)
    {fragment : Fragment} (hidle : a.advance fragment.timestamp = (a, []))
    (hroom : a.HasRoomFor other) : AlikeResults key (a.insert other fragment) (a, []) := by
  have halike := alike_insert_of_ne hne ha fragment (by rwa [hidle])
  rwa [hidle] at halike

end Alike

/-- Two lists in which every key sees the same have the same length. -/
theorem length_eq_of_seenBy {events more : List (AssemblyEvent κ)}
    (h : ∀ key, seenBy key events = seenBy key more) : events.length = more.length := by
  have hcount (events : List (AssemblyEvent κ)) (event : AssemblyEvent κ) :
      (events.map AssemblyEvent.unnumbered).count event =
        (seenBy event.key events).count event := by
    have hseen : seenBy event.key events =
        (events.map AssemblyEvent.unnumbered).filter (·.key = event.key) := by
      rw [List.filter_map, seenBy, ofKey]
      simp [Function.comp_def]
    rw [hseen, List.count_filter (by simp)]
  have hperm : (events.map AssemblyEvent.unnumbered).Perm
      (more.map AssemblyEvent.unnumbered) := by
    rw [List.perm_iff_count]
    intro event
    rw [hcount, hcount, h]
  simpa using hperm.length_eq

end Assembler

theorem flatMap_eq_of_only {α β : Type} {things : List α} (hnodup : things.Nodup) {thing : α}
    (hthing : thing ∈ things) {f : α → List β}
    (honly : ∀ other ∈ things, other ≠ thing → f other = []) : things.flatMap f = f thing := by
  induction things with
  | nil => cases hthing
  | cons first rest ih =>
    obtain ⟨hfirst, hrest⟩ := List.nodup_cons.1 hnodup
    rcases List.mem_cons.1 hthing with rfl | hmem
    · have hnone : rest.flatMap f = [] := by
        rw [List.flatMap_eq_nil_iff]
        intro other hother
        exact honly other (List.mem_cons_of_mem _ hother) (fun heq => hfirst (heq ▸ hother))
      rw [List.flatMap_cons, hnone, List.append_nil]
    · have hne : first ≠ thing := fun heq => hfirst (heq ▸ hmem)
      rw [List.flatMap_cons, honly first List.mem_cons_self hne, List.nil_append]
      exact ih hrest hmem (fun other hother => honly other (List.mem_cons_of_mem _ hother))

open Assembler (Alike AlikeResults Regular)

namespace ShardedAssembler

variable {count : Nat}

def shard (sharded : ShardedAssembler κ count) (index : Fin count) : Assembler κ :=
  sharded.shards[index]

theorem toList_shards (sharded : ShardedAssembler κ count) :
    sharded.shards.toList = (List.finRange count).map sharded.shard := by
  refine List.ext_getElem (by simp) ?_
  intro index _ _
  simp [shard]

theorem stats_eq_sum (sharded : ShardedAssembler κ count) :
    sharded.stats = ∑ index, (sharded.shard index).stats := by
  rw [stats, toList_shards, ← List.sum_ofFn, List.ofFn_eq_map, List.sum_eq_foldl, List.foldl_map,
    List.foldl_map]
  rfl

theorem shard_onAll (sharded : ShardedAssembler κ count)
    (operation : Assembler κ → Assembler κ × List (AssemblyEvent κ)) (index : Fin count) :
    (sharded.onAll operation).1.shard index = (operation (sharded.shard index)).1 := by
  simp [shard, onAll]

theorem events_onAll (sharded : ShardedAssembler κ count)
    (operation : Assembler κ → Assembler κ × List (AssemblyEvent κ)) :
    (sharded.onAll operation).2 =
      (List.finRange count).flatMap (fun index => (operation (sharded.shard index)).2) := by
  rw [onAll, toList_shards, List.flatMap_map]

variable [DecidableEq κ]

theorem shard_insert (sharded : ShardedAssembler κ count) (key : κ) (fragment : Fragment)
    (index : Fin count) :
    (sharded.insert key fragment).1.shard index =
      if index = sharded.shardOf key then
        ((sharded.shard (sharded.shardOf key)).insert key fragment).1
      else sharded.shard index := by
  simp [shard, insert, Vector.getElem_set, Fin.ext_iff, eq_comm]
  rfl

/-- What an insertion counts in the shard of its key it counts in all. -/
theorem stats_insert {sharded : ShardedAssembler κ count} {key : κ} {fragment : Fragment}
    {tally : AssemblyStats}
    (h : ((sharded.shard (sharded.shardOf key)).insert key fragment).1.stats =
      (sharded.shard (sharded.shardOf key)).stats + tally) :
    (sharded.insert key fragment).1.stats = sharded.stats + tally := by
  have hshards (index : Fin count) : ((sharded.insert key fragment).1.shard index).stats =
      (sharded.shard index).stats + if sharded.shardOf key = index then tally else 0 := by
    rw [shard_insert]
    by_cases hindex : index = sharded.shardOf key
    · subst hindex
      rw [if_pos rfl, if_pos rfl, h]
    · rw [if_neg hindex, if_neg (Ne.symm hindex), add_zero]
  rw [stats_eq_sum, Finset.sum_congr rfl (fun index _ => hshards index), Finset.sum_add_distrib,
    Finset.sum_ite_eq, if_pos (Finset.mem_univ _), ← stats_eq_sum]

/-- An insertion puts a sequence into the shard of its key. -/
theorem owned_insert {sharded : ShardedAssembler κ count}
    (hregular : ∀ index, (sharded.shard index).Regular)
    (howned : ∀ index, ∀ sequence ∈ (sharded.shard index).sequences,
      sharded.shardOf sequence.key = index) (key : κ) (fragment : Fragment) (index : Fin count) :
    ∀ sequence ∈ ((sharded.insert key fragment).1.shard index).sequences,
      sharded.shardOf sequence.key = index := by
  intro sequence hsequence
  rw [shard_insert] at hsequence
  split at hsequence
  · next hindex =>
    rcases Assembler.mem_sequences_insert (hregular _).distinct hsequence with
      ⟨hmem, _⟩ | ⟨_, rfl⟩ | ⟨_, rfl⟩
    · exact (howned _ sequence hmem).trans hindex.symm
    · rw [Assembler.key_target]
      exact hindex.symm
    · rw [Assembler.key_grown]
      exact hindex.symm
  · exact howned index sequence hsequence

/-- The shards show every key what a single assembler shows it, each the keys that it looks
after, and count the same together. -/
structure Mirrors (sharded : ShardedAssembler κ count) (single : Assembler κ) : Prop where
  regular : single.Regular
  shards_regular : ∀ index, (sharded.shard index).Regular
  owned : ∀ index, ∀ sequence ∈ (sharded.shard index).sequences,
    sharded.shardOf sequence.key = index
  alike : ∀ key, Alike key single (sharded.shard (sharded.shardOf key))
  stats_eq : sharded.stats = single.stats

structure MirrorsResults (sharded : ShardedAssembler κ count × List (AssemblyEvent κ))
    (single : Assembler κ × List (AssemblyEvent κ)) : Prop where
  assemblers : sharded.1.Mirrors single.1
  events : ∀ key, seenBy key single.2 = seenBy key sharded.2

/-- What an advance and a flush have in common. -/
structure Sweep (operation : Assembler κ → Assembler κ × List (AssemblyEvent κ)) : Prop where
  regular : ∀ {a}, a.Regular → (operation a).1.Regular
  subset : ∀ a, (operation a).1.sequences ⊆ a.sequences
  ended : ∀ a, ∀ event ∈ (operation a).2, ∃ sequence ∈ a.sequences, event.key = sequence.key
  alike : ∀ {key a b}, Alike key a b → a.Regular → b.Regular →
    AlikeResults key (operation a) (operation b)
  stats_eq : ∀ a, (operation a).1.stats = a.stats + .timeouts (operation a).2.length

theorem sweep_advance (time : Timestamp) : Sweep (fun a : Assembler κ => a.advance time) where
  regular h := h.advance time
  subset a := (a.sequences_advance_sublist time).subset
  ended a event hevent := by
    rw [Assembler.events_advance] at hevent
    obtain ⟨sequence, hsequence, rfl⟩ := List.mem_map.1 hevent
    exact ⟨sequence, (List.takeWhile_sublist _).subset hsequence, rfl⟩
  alike h ha hb := h.advance ha hb time
  stats_eq a := a.stats_advance time

theorem sweep_flush : Sweep (fun a : Assembler κ => a.flush) where
  regular h := h.flush
  subset _ := List.nil_subset _
  ended a event hevent := by
    obtain ⟨sequence, hsequence, rfl⟩ := List.mem_map.1 hevent
    exact ⟨sequence, (Assembler.perm_inOpeningOrder a.sequences).subset hsequence, rfl⟩
  alike h ha hb := h.flush ha hb
  stats_eq a := a.stats_flush

section Sweep

variable {sharded : ShardedAssembler κ count} {single : Assembler κ}
  {operation : Assembler κ → Assembler κ × List (AssemblyEvent κ)} (hsweep : Sweep operation)
  (h : sharded.Mirrors single)

include hsweep h

/-- Only the shard of a key has events for it. -/
theorem seenBy_onAll (key : κ) :
    seenBy key (sharded.onAll operation).2 =
      seenBy key (operation (sharded.shard (sharded.shardOf key))).2 := by
  have hflat : seenBy key (sharded.onAll operation).2 =
      (List.finRange count).flatMap
        (fun index => seenBy key (operation (sharded.shard index)).2) := by
    rw [events_onAll, seenBy, ofKey, List.filter_flatMap, List.map_flatMap]
    rfl
  rw [hflat]
  refine flatMap_eq_of_only (List.nodup_finRange count) (List.mem_finRange _) ?_
  intro index _ hother
  have hunseen : ofKey key (operation (sharded.shard index)).2 = [] := by
    refine AssemblyEvent.ofKey_eq_nil ?_
    intro event hevent hkey
    obtain ⟨sequence, hsequence, heq⟩ := hsweep.ended _ event hevent
    exact hother (hkey ▸ heq ▸ (h.owned index sequence hsequence).symm)
  rw [seenBy, hunseen]
  rfl

theorem Mirrors.onAll : MirrorsResults (sharded.onAll operation) (operation single) := by
  have halike (key : κ) :
      AlikeResults key (operation single) (operation (sharded.shard (sharded.shardOf key))) :=
    hsweep.alike (h.alike key) h.regular (h.shards_regular _)
  have hevents (key : κ) :
      seenBy key (operation single).2 = seenBy key (sharded.onAll operation).2 := by
    rw [seenBy_onAll hsweep h, (halike key).events]
  have hlength : ∑ index, (operation (sharded.shard index)).2.length =
      (operation single).2.length := by
    rw [Assembler.length_eq_of_seenBy hevents, events_onAll, List.length_flatMap,
      ← List.ofFn_eq_map, List.sum_ofFn]
  refine ⟨?_, hevents⟩
  constructor
  · exact hsweep.regular h.regular
  · intro index
    rw [shard_onAll]
    exact hsweep.regular (h.shards_regular index)
  · intro index sequence hsequence
    rw [shard_onAll] at hsequence
    exact h.owned index sequence (hsweep.subset _ hsequence)
  · intro key
    rw [shard_onAll]
    exact (halike key).assemblers
  · simp only [stats_eq_sum, shard_onAll, hsweep.stats_eq]
    rw [Finset.sum_add_distrib, ← AssemblyStats.timeouts_sum, hlength, ← stats_eq_sum, h.stats_eq]

end Sweep

section Insert

variable {sharded : ShardedAssembler κ count} {single : Assembler κ} (h : sharded.Mirrors single)

include h

theorem Mirrors.owned_key {key : κ} {index : Fin count}
    (hkey : key ∈ (sharded.shard index).sequences.map FragmentSequence.key) :
    index = sharded.shardOf key := by
  obtain ⟨sequence, hsequence, rfl⟩ := List.mem_map.1 hkey
  exact (h.owned index sequence hsequence).symm

theorem Mirrors.mem_keys_iff {key : κ} :
    key ∈ (sharded.shard (sharded.shardOf key)).sequences.map FragmentSequence.key ↔
      key ∈ single.sequences.map FragmentSequence.key := by
  rw [Assembler.mem_keys_iff, Assembler.mem_keys_iff, (h.alike key).isSome_eq]

theorem Mirrors.size_le (index : Fin count) : (sharded.shard index).size ≤ single.size := by
  have hnodup : ((sharded.shard index).sequences.map FragmentSequence.key).Nodup :=
    List.pairwise_map.2 (h.shards_regular index).distinct
  have hsubset : (sharded.shard index).sequences.map FragmentSequence.key ⊆
      single.sequences.map FragmentSequence.key := by
    intro key hkey
    rw [h.owned_key hkey] at hkey
    exact h.mem_keys_iff.1 hkey
  have hlength := (List.subperm_of_subset hnodup hsubset).length_le
  rwa [List.length_map, List.length_map] at hlength

theorem Mirrors.hasRoomFor {key : κ} (hroom : single.HasRoomFor key) :
    (sharded.shard (sharded.shardOf key)).HasRoomFor key := by
  rcases hroom with hopen | hfits
  · exact .inl ((h.alike key).isSome_eq ▸ hopen)
  · refine .inr (Nat.lt_of_le_of_lt (h.size_le _) ?_)
    rwa [← (h.alike key).config_eq]

variable {key : κ} {fragment : Fragment}
  (hsingle : single.advance fragment.timestamp = (single, []))
  (hshard : (sharded.shard (sharded.shardOf key)).advance fragment.timestamp =
    (sharded.shard (sharded.shardOf key), []))
  (hroom : single.HasRoomFor key)

include hsingle hshard hroom

theorem Mirrors.alike_insert (other : κ) :
    AlikeResults other (single.insert key fragment)
      ((sharded.insert key fragment).1.shard (sharded.shardOf other),
        (sharded.insert key fragment).2) := by
  have hshardroom := h.hasRoomFor hroom
  have hevents : (sharded.insert key fragment).2 =
      ((sharded.shard (sharded.shardOf key)).insert key fragment).2 := rfl
  rw [shard_insert, hevents]
  by_cases hkey : key = other
  · subst hkey
    rw [if_pos rfl]
    exact (h.alike key).insert h.regular (h.shards_regular _) fragment
  · have hleft := Assembler.alike_insert_of_idle hkey h.regular hsingle hroom
    have hright := Assembler.alike_insert_of_idle hkey (h.shards_regular _) hshard hshardroom
    refine ⟨?_, hleft.events.trans hright.events.symm⟩
    by_cases hsame : sharded.shardOf other = sharded.shardOf key
    · have hbetween := h.alike other
      rw [hsame] at hbetween
      rw [if_pos hsame]
      exact (hleft.assemblers.trans hbetween).trans hright.assemblers.symm
    · rw [if_neg hsame]
      exact hleft.assemblers.trans (h.alike other)

theorem Mirrors.stats_insert :
    (sharded.insert key fragment).1.stats = (single.insert key fragment).1.stats := by
  obtain ⟨tally, hsingletally, hshardtally⟩ :=
    (h.alike key).stats_insert hsingle hshard hroom (h.hasRoomFor hroom)
  rw [ShardedAssembler.stats_insert hshardtally, h.stats_eq, hsingletally]

theorem Mirrors.insert :
    MirrorsResults (sharded.insert key fragment) (single.insert key fragment) := by
  have halike := h.alike_insert hsingle hshard hroom
  refine ⟨?_, fun other => (halike other).events⟩
  constructor
  · exact h.regular.apply (.insert key fragment)
  · intro index
    rw [shard_insert]
    split
    · exact (h.shards_regular _).apply (.insert key fragment)
    · exact h.shards_regular index
  · exact owned_insert h.shards_regular h.owned key fragment
  · exact fun other => (halike other).assemblers
  · exact h.stats_insert hsingle hshard hroom

end Insert

def apply (sharded : ShardedAssembler κ count) :
    AssemblyOperation κ → ShardedAssembler κ count × List (AssemblyEvent κ)
  | .insert key fragment => sharded.insert key fragment
  | .advance time => sharded.advance time
  | .flush => sharded.flush

def after (sharded : ShardedAssembler κ count) :
    List (AssemblyOperation κ) → ShardedAssembler κ count
  | [] => sharded
  | operation :: rest => (sharded.apply operation).1.after rest

def calls (sharded : ShardedAssembler κ count) :
    List (AssemblyOperation κ) → List (AssemblyCall κ)
  | [] => []
  | operation :: rest =>
    ⟨operation, (sharded.apply operation).2⟩ :: (sharded.apply operation).1.calls rest

def sequences (sharded : ShardedAssembler κ count) : List (FragmentSequence κ) :=
  sharded.shards.toList.flatMap Assembler.sequences

end ShardedAssembler

/-- Every insertion comes right behind an advance to the time of its fragment. -/
inductive Announced : List (AssemblyOperation κ) → Prop where
  | nil : Announced []
  | insert (key : κ) (fragment : Fragment) {rest : List (AssemblyOperation κ)} :
      Announced rest →
      Announced (.advance fragment.timestamp :: .insert key fragment :: rest)
  | advance (time : Timestamp) {rest : List (AssemblyOperation κ)} :
      Announced rest → Announced (.advance time :: rest)
  | flush {rest : List (AssemblyOperation κ)} : Announced rest → Announced (.flush :: rest)

namespace ShardedAssembler

variable {count : Nat} [DecidableEq κ]

omit [DecidableEq κ] in
theorem shard_ofConfig (shardOf : κ → Fin count) (config : AssemblyConfig) (index : Fin count) :
    (ofConfig shardOf config).shard index = .ofConfig config := by
  simp [shard, ofConfig, Assembler.ofConfig]

omit [DecidableEq κ] in
theorem stats_ofConfig (shardOf : κ → Fin count) (config : AssemblyConfig) :
    (ofConfig shardOf config).stats = 0 := by
  rw [stats_eq_sum]
  refine Finset.sum_eq_zero ?_
  intro index _
  rw [shard_ofConfig]
  rfl

theorem mirrors_ofConfig (shardOf : κ → Fin count) (config : AssemblyConfig) :
    (ofConfig shardOf config).Mirrors (.ofConfig config) := by
  constructor
  · exact Assembler.regular_ofConfig config
  · intro index
    rw [shard_ofConfig]
    exact Assembler.regular_ofConfig config
  · intro index sequence hsequence
    rw [shard_ofConfig] at hsequence
    cases hsequence
  · intro key
    rw [shard_ofConfig]
    exact .refl key _
  · exact stats_ofConfig shardOf config

/-- The two go through the run with every key seeing the same, call by call. -/
structure MirrorsRun (sharded : ShardedAssembler κ count) (single : Assembler κ)
    (operations : List (AssemblyOperation κ)) : Prop where
  assemblers : (sharded.after operations).Mirrors (single.after operations)
  events : ∀ key, (single.calls operations).map (fun call => seenBy key call.events) =
    (sharded.calls operations).map (fun call => seenBy key call.events)

section Run

variable {sharded : ShardedAssembler κ count} {single : Assembler κ}
  {operations : List (AssemblyOperation κ)}

theorem MirrorsRun.cons {operation : AssemblyOperation κ}
    (hstep : MirrorsResults (sharded.apply operation) (single.apply operation))
    (hrest : MirrorsRun (sharded.apply operation).1 (single.apply operation).1 operations) :
    MirrorsRun sharded single (operation :: operations) where
  assemblers := hrest.assemblers
  events key := congrArg₂ List.cons (hstep.events key) (hrest.events key)

theorem Mirrors.run (h : sharded.Mirrors single) (hannounced : Announced operations)
    (hroom : single.Roomy operations) : MirrorsRun sharded single operations := by
  induction hannounced generalizing sharded single with
  | nil => exact ⟨h, fun _ => rfl⟩
  | insert key fragment _ ih =>
    obtain ⟨_, hfits, hrest⟩ := hroom
    have hadvanced := Mirrors.onAll (sweep_advance fragment.timestamp) h
    have hsingle := single.advance_advance fragment.timestamp
    have hshard (index : Fin count) :
        ((sharded.advance fragment.timestamp).1.shard index).advance fragment.timestamp =
          ((sharded.advance fragment.timestamp).1.shard index, []) := by
      rw [advance, shard_onAll]
      exact Assembler.advance_advance _ _
    have hroomy : (single.advance fragment.timestamp).1.HasRoomFor key := by
      have hagain : ((single.advance fragment.timestamp).1.advance
          fragment.timestamp).1.HasRoomFor key := hfits
      rwa [hsingle] at hagain
    have hinserted := hadvanced.assemblers.insert hsingle (hshard _) hroomy
    exact .cons hadvanced (.cons hinserted (ih hinserted.assemblers hrest))
  | advance time _ ih =>
    have hstep := Mirrors.onAll (sweep_advance time) h
    exact .cons hstep (ih hstep.assemblers hroom.2)
  | flush _ ih =>
    have hstep := Mirrors.onAll sweep_flush h
    exact .cons hstep (ih hstep.assemblers hroom.2)

theorem Mirrors.mem_openKeys_iff (h : sharded.Mirrors single) (key : κ) :
    key ∈ sharded.sequences.map FragmentSequence.key ↔
      key ∈ single.sequences.map FragmentSequence.key := by
  rw [← h.mem_keys_iff, sequences, toList_shards, List.flatMap_map, List.map_flatMap,
    List.mem_flatMap]
  constructor
  · rintro ⟨index, _, hkey⟩
    rwa [← h.owned_key hkey]
  · exact fun hkey => ⟨_, List.mem_finRange _, hkey⟩

end Run

/-- Shards that see the time of every fragment before it comes do the work of one assembler:
every key sees the same events, call by call, the same keys have open sequences in the end, and the
counters add up to the same. -/
theorem sharding_unseen (shardOf : κ → Fin count) (config : AssemblyConfig)
    (operations : List (AssemblyOperation κ)) (hannounced : Announced operations)
    (hroom : (Assembler.ofConfig config : Assembler κ).Roomy operations) :
    let single := Assembler.ofConfig config
    let sharded := ofConfig shardOf config
    (∀ key, (single.calls operations).map (fun call => seenBy key call.events) =
        (sharded.calls operations).map (fun call => seenBy key call.events)) ∧
      (∀ key, key ∈ (sharded.after operations).sequences.map FragmentSequence.key ↔
        key ∈ (single.after operations).sequences.map FragmentSequence.key) ∧
      (sharded.after operations).stats = (single.after operations).stats := by
  have hrun := (mirrors_ofConfig shardOf config).run hannounced hroom
  exact ⟨hrun.events, hrun.assemblers.mem_openKeys_iff, hrun.assemblers.stats_eq⟩

section Parity

/-- Two shards: one for the even keys, one for the odd ones. -/
def parity (key : Nat) : Fin 2 := Fin.ofNat 2 key

/-- A datagram under key 7 is completed, one under key 9 times out with the clock of key 8, and the
next fragment for key 9 comes late. -/
def announcedFragments : List (AssemblyOperation Nat) :=
  [.advance .zero, .insert 9 (.ofLength 0 8 true .zero),
    .advance (.ofSeconds 20), .insert 7 (.ofPayload 1 [2] false (.ofSeconds 20)),
    .advance (.ofSeconds 20), .insert 7 (.ofPayload 0 [1] true (.ofSeconds 20)),
    .advance (.ofSeconds 40), .insert 8 (.ofLength 0 8 true (.ofSeconds 40)),
    .advance (.ofSeconds 30), .insert 9 (.ofLength 0 8 true (.ofSeconds 30)),
    .flush]

theorem parity_unseen :
    Announced announcedFragments ∧ (Assembler.ofConfig {}).Roomy announcedFragments ∧
      (∀ key, ((Assembler.ofConfig {}).calls announcedFragments).map
            (fun call => seenBy key call.events) =
          ((ofConfig parity {}).calls announcedFragments).map
            (fun call => seenBy key call.events)) ∧
      (∀ key, key ∈ ((ofConfig parity {}).after announcedFragments).sequences.map
            FragmentSequence.key ↔
          key ∈ ((Assembler.ofConfig {}).after announcedFragments).sequences.map
            FragmentSequence.key) ∧
      ((ofConfig parity {}).after announcedFragments).stats =
        ((Assembler.ofConfig {}).after announcedFragments).stats := by
  have hannounced : Announced announcedFragments :=
    .insert 9 (.ofLength 0 8 true .zero) <| .insert 7 (.ofPayload 1 [2] false (.ofSeconds 20)) <|
      .insert 7 (.ofPayload 0 [1] true (.ofSeconds 20)) <|
      .insert 8 (.ofLength 0 8 true (.ofSeconds 40)) <|
      .insert 9 (.ofLength 0 8 true (.ofSeconds 30)) <| .flush .nil
  have hroom : (Assembler.ofConfig {}).Roomy announcedFragments := by decide
  exact ⟨hannounced, hroom, sharding_unseen parity {} announcedFragments hannounced hroom⟩

end Parity

end ShardedAssembler

end Dissection
