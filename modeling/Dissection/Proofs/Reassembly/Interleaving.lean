import Dissection.Proofs.Reassembly.Standstill

/-!
# Interleavings

Several clients insert fragments into one sharded assembler, each of them in its own order and for
keys of its own. When all fragments come within one window and no shard runs out of room, it does
not matter how the requests of the clients are interleaved. The clocks of the shards and the serial
numbers of their sequences differ, but of every key they hold what its own fragments say.
-/

namespace Dissection

variable {ι κ : Type} [DecidableEq κ]

open AssemblyEvent (seenBy seenBy_append)

/-- A fragment that a client inserts under a key. -/
structure Request (ι κ : Type) where
  client : ι
  key : κ
  fragment : Fragment

namespace Request

def operation (request : Request ι κ) : AssemblyOperation κ :=
  .insert request.key request.fragment

def fragmentsOf (key : κ) (run : List (Request ι κ)) : List Fragment :=
  (run.filter (·.key = key)).map fragment

theorem fragmentsOf_concat (key : κ) (run : List (Request ι κ)) (last : Request ι κ) :
    fragmentsOf key (run ++ [last]) =
      fragmentsOf key run ++ if last.key = key then [last.fragment] else [] := by
  rw [fragmentsOf, List.filter_append, List.map_append]
  by_cases h : last.key = key
  · simp [h, fragmentsOf]
  · simp [h, fragmentsOf]

theorem fragmentsOf_concat_of_ne {key : κ} {last : Request ι κ} (hne : last.key ≠ key)
    (run : List (Request ι κ)) : fragmentsOf key (run ++ [last]) = fragmentsOf key run := by
  rw [fragmentsOf_concat, if_neg hne, List.append_nil]

/-- What the request counts after the run. -/
def tally (config : AssemblyConfig) (run : List (Request ι κ)) (request : Request ι κ) :
    AssemblyStats :=
  let state := (KeyRecord.ofFragments config request.key (fragmentsOf request.key run)).state
  state.openingTally + (state.target request.key request.fragment.timestamp).tally
    (config.stored request.fragment)

end Request

open Request (fragmentsOf)

/-- The last request of a run is the last one for its key. -/
theorem KeyRecord.ofFragments_fragmentsOf_concat (config : AssemblyConfig)
    (run : List (Request ι κ)) (last : Request ι κ) :
    ofFragments config last.key (fragmentsOf last.key (run ++ [last])) =
      (ofFragments config last.key (fragmentsOf last.key run)).insert config last.key
        last.fragment := by
  rw [Request.fragmentsOf_concat, if_pos rfl, ofFragments_concat]

theorem KeyRecord.stats_fragmentsOf_concat (config : AssemblyConfig) (run : List (Request ι κ))
    (last : Request ι κ) (key : κ) :
    (ofFragments config key (fragmentsOf key (run ++ [last]))).stats =
      (ofFragments config key (fragmentsOf key run)).stats +
        if last.key = key then last.tally config run else 0 := by
  by_cases hkey : last.key = key
  · subst hkey
    rw [ofFragments_fragmentsOf_concat, if_pos rfl]
    rfl
  · rw [Request.fragmentsOf_concat_of_ne hkey, if_neg hkey, add_zero]

section Interleaves

variable [DecidableEq ι]

/-- The run has the requests of all clients, those of each client in its order. -/
def Interleaves (clients : ι → List (κ × Fragment)) (run : List (Request ι κ)) : Prop :=
  ∀ client, (run.filter (·.client = client)).map (fun request => (request.key, request.fragment)) =
    clients client

section Client

variable {clients : ι → List (κ × Fragment)} {run : List (Request ι κ)}
  (h : Interleaves clients run)

include h

omit [DecidableEq κ] in
theorem Interleaves.mem_client {request : Request ι κ} (hrequest : request ∈ run) :
    (request.key, request.fragment) ∈ clients request.client := by
  rw [← h request.client]
  exact List.mem_map_of_mem (f := fun request : Request ι κ => (request.key, request.fragment))
    (List.mem_filter.2 ⟨hrequest, by simp⟩)

/-- All fragments for a key of a client come from that client. -/
theorem Interleaves.fragmentsOf_eq
    (hkeys : ∀ i j, ∀ a ∈ clients i, ∀ b ∈ clients j, a.1 = b.1 → i = j) {client : ι}
    {offered : κ × Fragment} (hoffered : offered ∈ clients client) :
    fragmentsOf offered.1 run =
      ((clients client).filter (·.1 = offered.1)).map Prod.snd := by
  have hclient : run.filter (·.key = offered.1) =
      (run.filter (·.client = client)).filter (·.key = offered.1) := by
    rw [List.filter_filter]
    refine List.filter_congr ?_
    intro request hrequest
    by_cases hkey : request.key = offered.1
    · have hsame := hkeys _ _ _ (h.mem_client hrequest) _ hoffered hkey
      simp [hkey, hsame]
    · simp [hkey]
  rw [fragmentsOf, hclient, ← h client, List.filter_map, List.map_map]
  rfl

end Client

/-- In two interleavings every key has the same fragments in the same order. -/
theorem fragmentsOf_eq_of_interleaves {clients : ι → List (κ × Fragment)}
    (hkeys : ∀ i j, ∀ a ∈ clients i, ∀ b ∈ clients j, a.1 = b.1 → i = j)
    {first second : List (Request ι κ)} (hfirst : Interleaves clients first)
    (hsecond : Interleaves clients second) (key : κ) :
    fragmentsOf key first = fragmentsOf key second := by
  by_cases hused : ∃ client, ∃ offered ∈ clients client, offered.1 = key
  · obtain ⟨client, offered, hoffered, rfl⟩ := hused
    rw [hfirst.fragmentsOf_eq hkeys hoffered, hsecond.fragmentsOf_eq hkeys hoffered]
  · have hnone {run : List (Request ι κ)} (h : Interleaves clients run) :
        fragmentsOf key run = [] := by
      rw [fragmentsOf, List.map_eq_nil_iff, List.filter_eq_nil_iff]
      intro request hrequest hkey
      exact hused ⟨_, _, h.mem_client hrequest, of_decide_eq_true hkey⟩
    rw [hnone hfirst, hnone hsecond]

end Interleaves

namespace ShardedAssembler

variable {count : Nat}

def HasRoom (sharded : ShardedAssembler κ count) : AssemblyOperation κ → Prop
  | .insert key fragment => (sharded.shard (sharded.shardOf key)).HasRoom (.insert key fragment)
  | .advance _ => True
  | .flush => True

/-- No sequence is opened in the run while its shard has no room for another one. -/
def Roomy (sharded : ShardedAssembler κ count) : List (AssemblyOperation κ) → Prop
  | [] => True
  | operation :: rest => sharded.HasRoom operation ∧ (sharded.apply operation).1.Roomy rest

instance (sharded : ShardedAssembler κ count) (operation : AssemblyOperation κ) :
    Decidable (sharded.HasRoom operation) :=
  match operation with
  | .insert key fragment =>
    inferInstanceAs (Decidable
      ((sharded.shard (sharded.shardOf key)).HasRoom (.insert key fragment)))
  | .advance _ => isTrue trivial
  | .flush => isTrue trivial

instance decidableRoomy (sharded : ShardedAssembler κ count) :
    ∀ operations : List (AssemblyOperation κ), Decidable (sharded.Roomy operations)
  | [] => isTrue trivial
  | operation :: rest =>
    have := decidableRoomy (sharded.apply operation).1 rest
    inferInstanceAs (Decidable (_ ∧ _))

def eventsOf (sharded : ShardedAssembler κ count) (operations : List (AssemblyOperation κ)) :
    List (AssemblyEvent κ) :=
  (sharded.calls operations).flatMap AssemblyCall.events

/-- The shards and their events show of every key what has become of it by its fragments in the
run, and the counters add up over the keys. -/
structure Recorded (config : AssemblyConfig) (times : List Timestamp) (run : List (Request ι κ))
    (sharded : ShardedAssembler κ count) (events : List (AssemblyEvent κ)) : Prop where
  config_eq : ∀ index, (sharded.shard index).config = config
  recent : ∀ index, (sharded.shard index).Recent times
  owned : ∀ index, ∀ sequence ∈ (sharded.shard index).sequences,
    sharded.shardOf sequence.key = index
  state_eq : ∀ key, (sharded.shard (sharded.shardOf key)).keyState key =
    (KeyRecord.ofFragments config key (fragmentsOf key run)).state
  events_eq : ∀ key, seenBy key events =
    (KeyRecord.ofFragments config key (fragmentsOf key run)).events
  stats_eq : ∀ keys : Finset κ, (∀ request ∈ run, request.key ∈ keys) →
    sharded.stats = ∑ key ∈ keys, (KeyRecord.ofFragments config key (fragmentsOf key run)).stats

theorem recorded_ofConfig (shardOf : κ → Fin count) (config : AssemblyConfig)
    (times : List Timestamp) :
    (ofConfig shardOf config).Recorded config times ([] : List (Request ι κ)) [] := by
  constructor
  · intro index
    rw [shard_ofConfig]
    rfl
  · intro index
    rw [shard_ofConfig]
    exact Assembler.recent_ofConfig config times
  · intro index sequence hsequence
    rw [shard_ofConfig] at hsequence
    cases hsequence
  · intro key
    rw [shard_ofConfig]
    rfl
  · exact fun _ => rfl
  · intro keys _
    rw [stats_ofConfig]
    exact (Finset.sum_eq_zero (fun _ _ => rfl)).symm

section Step

variable {config : AssemblyConfig} {times : List Timestamp} {run : List (Request ι κ)}
  {sharded : ShardedAssembler κ count} {events : List (AssemblyEvent κ)}
  (h : sharded.Recorded config times run events)
  (hwindow : ∀ early ∈ times, ∀ late ∈ times, (late.since early).nanos ≤ config.window.nanos)
  {request : Request ι κ} (htime : request.fragment.timestamp ∈ times)
  (hroom : sharded.HasRoom request.operation)

include h hwindow

theorem Recorded.window_le (index : Fin count) : ∀ early ∈ times, ∀ late ∈ times,
    (late.since early).nanos ≤ (sharded.shard index).config.window.nanos := by
  rw [h.config_eq index]
  exact hwindow

include htime hroom

theorem Recorded.hasRoomFor :
    (sharded.shard (sharded.shardOf request.key)).HasRoomFor request.key := by
  have hroomy : ((sharded.shard (sharded.shardOf request.key)).advance
    request.fragment.timestamp).1.HasRoomFor request.key := hroom
  rwa [(h.recent _).advance_eq htime (h.window_le hwindow _)] at hroomy

theorem Recorded.recent_insert (index : Fin count) :
    ((sharded.insert request.key request.fragment).1.shard index).Recent times := by
  rw [shard_insert]
  split
  · exact (h.recent _).insert htime (h.window_le hwindow _) rfl
      (h.hasRoomFor hwindow htime hroom)
  · exact h.recent index

/-- The shard of the request does with it what the record of its key says. -/
theorem Recorded.insert_home :
    let home := sharded.shard (sharded.shardOf request.key)
    let record := KeyRecord.ofFragments config request.key (fragmentsOf request.key run)
    let next := record.insert config request.key request.fragment
    (home.insert request.key request.fragment).1.keyState request.key = next.state ∧
      record.events ++ seenBy request.key (home.insert request.key request.fragment).2 =
        next.events ∧
      (home.insert request.key request.fragment).1.stats =
        home.stats + request.tally config run := by
  obtain ⟨hstate, hevents, hstats⟩ := (h.recent _).insert_key htime (h.window_le hwindow _) rfl
    (h.hasRoomFor hwindow htime hroom)
  rw [h.config_eq, h.state_eq] at hstate hevents hstats
  refine ⟨hstate, ?_, hstats⟩
  rw [hevents]
  rfl

theorem Recorded.keyState_insert (key : κ) :
    ((sharded.insert request.key request.fragment).1.shard (sharded.shardOf key)).keyState key =
      (KeyRecord.ofFragments config key (fragmentsOf key (run ++ [request]))).state := by
  rw [shard_insert]
  by_cases hkey : request.key = key
  · subst hkey
    rw [if_pos rfl, (h.insert_home hwindow htime hroom).1,
      KeyRecord.ofFragments_fragmentsOf_concat]
  · rw [Request.fragmentsOf_concat_of_ne hkey, ← h.state_eq key]
    split
    · next hsame =>
      rw [hsame]
      exact ((h.recent _).insert_other htime (h.window_le hwindow _) rfl
        (h.hasRoomFor hwindow htime hroom) hkey).1
    · rfl

theorem Recorded.seenBy_insert (key : κ) :
    seenBy key (events ++ (sharded.insert request.key request.fragment).2) =
      (KeyRecord.ofFragments config key (fragmentsOf key (run ++ [request]))).events := by
  have hresult : (sharded.insert request.key request.fragment).2 =
      ((sharded.shard (sharded.shardOf request.key)).insert request.key request.fragment).2 := rfl
  rw [seenBy_append, h.events_eq, hresult]
  by_cases hkey : request.key = key
  · subst hkey
    rw [(h.insert_home hwindow htime hroom).2.1, KeyRecord.ofFragments_fragmentsOf_concat]
  · rw [Request.fragmentsOf_concat_of_ne hkey, ((h.recent _).insert_other htime
      (h.window_le hwindow _) rfl (h.hasRoomFor hwindow htime hroom) hkey).2, List.append_nil]

/-- The request is counted once among the keys, under its own. -/
theorem Recorded.stats_insert {keys : Finset κ}
    (hkeys : ∀ other ∈ run ++ [request], other.key ∈ keys) :
    (sharded.insert request.key request.fragment).1.stats =
      ∑ key ∈ keys,
        (KeyRecord.ofFragments config key (fragmentsOf key (run ++ [request]))).stats := by
  have hearlier := h.stats_eq keys (fun other hmem => hkeys other (List.mem_append_left _ hmem))
  have hmem := hkeys request (List.mem_append_right _ List.mem_cons_self)
  rw [ShardedAssembler.stats_insert (h.insert_home hwindow htime hroom).2.2, hearlier,
    Finset.sum_congr rfl
      (fun key _ => KeyRecord.stats_fragmentsOf_concat config run request key),
    Finset.sum_add_distrib, Finset.sum_ite_eq, if_pos hmem]

theorem Recorded.insert :
    (sharded.apply request.operation).1.Recorded config times (run ++ [request])
      (events ++ (sharded.apply request.operation).2) where
  config_eq index := by
    change ((sharded.insert request.key request.fragment).1.shard index).config = config
    rw [shard_insert]
    split
    · rw [Assembler.config_insert, h.config_eq]
    · exact h.config_eq index
  recent := h.recent_insert hwindow htime hroom
  owned := owned_insert (fun index => (h.recent index).regular) h.owned request.key
    request.fragment
  state_eq := h.keyState_insert hwindow htime hroom
  events_eq := h.seenBy_insert hwindow htime hroom
  stats_eq _ hkeys := h.stats_insert hwindow htime hroom hkeys

end Step

/-- What the shards hold of every key after a run follows from the fragments of the key in it. -/
theorem Recorded.after {config : AssemblyConfig} {times : List Timestamp}
    (hwindow : ∀ early ∈ times, ∀ late ∈ times, (late.since early).nanos ≤ config.window.nanos)
    {run rest : List (Request ι κ)} {sharded : ShardedAssembler κ count}
    {events : List (AssemblyEvent κ)} (h : sharded.Recorded config times run events)
    (htimes : ∀ request ∈ rest, request.fragment.timestamp ∈ times)
    (hroom : sharded.Roomy (rest.map Request.operation)) :
    (sharded.after (rest.map Request.operation)).Recorded config times (run ++ rest)
      (events ++ sharded.eventsOf (rest.map Request.operation)) := by
  induction rest generalizing run sharded events with
  | nil =>
    rw [List.append_nil, eventsOf]
    simp only [List.map_nil, calls, List.flatMap_nil, List.append_nil]
    exact h
  | cons request rest ih =>
    obtain ⟨hfirst, hlater⟩ := List.forall_mem_cons.1 htimes
    have hnext := ih (h.insert hwindow hfirst hroom.1) hlater hroom.2
    rw [List.append_assoc, List.append_assoc] at hnext
    exact hnext

theorem Recorded.not_timeout {config : AssemblyConfig} {times : List Timestamp}
    {run : List (Request ι κ)} {sharded : ShardedAssembler κ count}
    {events : List (AssemblyEvent κ)} (h : sharded.Recorded config times run events) :
    ∀ event ∈ events, ∀ sequence, event ≠ .timeout sequence := by
  rintro event hevent sequence rfl
  have hseen : .timeout sequence.unnumbered ∈ seenBy sequence.key events :=
    List.mem_map_of_mem (f := AssemblyEvent.unnumbered)
      (List.mem_filter.2 ⟨hevent, by simp [AssemblyEvent.key]⟩)
  rw [h.events_eq] at hseen
  exact KeyRecord.not_timeout _ _ _ _ hseen

theorem filter_sequences {sharded : ShardedAssembler κ count}
    (hregular : ∀ index, (sharded.shard index).Regular)
    (howned : ∀ index, ∀ sequence ∈ (sharded.shard index).sequences,
      sharded.shardOf sequence.key = index) (key : κ) :
    sharded.sequences.filter (·.key = key) =
      ((sharded.shard (sharded.shardOf key)).get? key).toList := by
  rw [sequences, toList_shards, List.flatMap_map, List.filter_flatMap,
    ← (hregular _).distinct.filter_key key]
  refine flatMap_eq_of_only (List.nodup_finRange count) (List.mem_finRange _) ?_
  intro index _ hother
  rw [List.filter_eq_nil_iff]
  intro sequence hsequence hkey
  exact hother (howned index sequence hsequence ▸ congrArg _ (of_decide_eq_true hkey))

/-- Shards whose keys are in the same states have the same open sequences. -/
theorem perm_sequences {config : AssemblyConfig} {times : List Timestamp}
    {first second : List (Request ι κ)} {a b : ShardedAssembler κ count}
    {events more : List (AssemblyEvent κ)} (ha : a.Recorded config times first events)
    (hb : b.Recorded config times second more)
    (hsame : ∀ key, fragmentsOf key first = fragmentsOf key second) :
    (a.sequences.map FragmentSequence.unnumbered).Perm
      (b.sequences.map FragmentSequence.unnumbered) := by
  have hcount {sharded : ShardedAssembler κ count} {run : List (Request ι κ)}
      {events : List (AssemblyEvent κ)} (h : sharded.Recorded config times run events)
      (sequence : FragmentSequence κ) :
      (sharded.sequences.map FragmentSequence.unnumbered).count sequence =
        ((KeyRecord.ofFragments config sequence.key
          (fragmentsOf sequence.key run)).state.sequence?).toList.count sequence := by
    have hfilter := filter_sequences (fun index => (h.recent index).regular) h.owned sequence.key
    have hshown : (sharded.sequences.map FragmentSequence.unnumbered).filter
          (·.key = sequence.key) =
        ((sharded.shard (sharded.shardOf sequence.key)).shown? sequence.key).toList := by
      rw [List.filter_map, Assembler.shown?, Option.toList_map, ← hfilter]
      rfl
    rw [← h.state_eq, Assembler.sequence?_keyState, ← hshown, List.count_filter (by simp)]
  rw [List.perm_iff_count]
  intro sequence
  rw [hcount ha, hcount hb, hsame]

/-- The interleaving of the clients does not matter: every key sees the same events in the same
order and nothing times out, the same sequences are open in the end, and the counters are the
same. -/
theorem interleaving_unseen [DecidableEq ι] (shardOf : κ → Fin count) (config : AssemblyConfig)
    {clients : ι → List (κ × Fragment)}
    (hkeys : ∀ i j, ∀ a ∈ clients i, ∀ b ∈ clients j, a.1 = b.1 → i = j)
    (hwindow : ∀ i j, ∀ a ∈ clients i, ∀ b ∈ clients j,
      (a.2.timestamp.since b.2.timestamp).nanos ≤ config.window.nanos)
    {first second : List (Request ι κ)} (hfirst : Interleaves clients first)
    (hsecond : Interleaves clients second)
    (hroom : (ofConfig shardOf config).Roomy (first.map Request.operation))
    (hroom' : (ofConfig shardOf config).Roomy (second.map Request.operation)) :
    let sharded := ofConfig shardOf config
    let one := first.map Request.operation
    let other := second.map Request.operation
    (∀ key, seenBy key (sharded.eventsOf one) = seenBy key (sharded.eventsOf other)) ∧
      ((sharded.after one).sequences.map FragmentSequence.unnumbered).Perm
        ((sharded.after other).sequences.map FragmentSequence.unnumbered) ∧
      (∀ event ∈ sharded.eventsOf one ++ sharded.eventsOf other,
        ∀ sequence, event ≠ .timeout sequence) ∧
      (sharded.after one).stats = (sharded.after other).stats := by
  intro sharded one other
  have hsame := fragmentsOf_eq_of_interleaves hkeys hfirst hsecond
  let times := (first ++ second).map (fun request => request.fragment.timestamp)
  have htimes : ∀ request ∈ first ++ second, ∃ client, ∃ offered ∈ clients client,
      offered.2.timestamp = request.fragment.timestamp := by
    intro request hrequest
    rcases List.mem_append.1 hrequest with hmem | hmem
    · exact ⟨_, _, hfirst.mem_client hmem, rfl⟩
    · exact ⟨_, _, hsecond.mem_client hmem, rfl⟩
  have hclose : ∀ early ∈ times, ∀ late ∈ times,
      (late.since early).nanos ≤ config.window.nanos := by
    intro early hearly late hlate
    obtain ⟨request, hrequest, rfl⟩ := List.mem_map.1 hearly
    obtain ⟨later, hlater, rfl⟩ := List.mem_map.1 hlate
    obtain ⟨i, a, ha, htime⟩ := htimes later hlater
    obtain ⟨j, b, hb, htime'⟩ := htimes request hrequest
    rw [← htime, ← htime']
    exact hwindow i j a ha b hb
  have hstart : sharded.Recorded config times ([] : List (Request ι κ)) [] :=
    recorded_ofConfig shardOf config times
  have hone := hstart.after hclose
    (fun request hmem => List.mem_map_of_mem (List.mem_append_left _ hmem)) hroom
  have hother := hstart.after hclose
    (fun request hmem => List.mem_map_of_mem (List.mem_append_right _ hmem)) hroom'
  simp only [List.nil_append] at hone hother
  refine ⟨?_, perm_sequences hone hother hsame, ?_, ?_⟩
  · intro key
    rw [hone.events_eq, hother.events_eq, hsame]
  · intro event hevent
    rcases List.mem_append.1 hevent with hmem | hmem
    · exact hone.not_timeout event hmem
    · exact hother.not_timeout event hmem
  · let keys := ((first ++ second).map Request.key).toFinset
    have hused : ∀ request ∈ first ++ second, request.key ∈ keys :=
      fun request hmem => List.mem_toFinset.2 (List.mem_map_of_mem hmem)
    rw [hone.stats_eq keys (fun request hmem => hused request (List.mem_append_left _ hmem)),
      hother.stats_eq keys (fun request hmem => hused request (List.mem_append_right _ hmem))]
    refine Finset.sum_congr rfl ?_
    intro key _
    rw [hsame]

section Traffic

/-- One client completes a datagram under key 7 and starts over, which counts as late; the other one
has a datagram under way for key 8 and completes one under key 9. -/
def traffic : Bool → List (Nat × Fragment)
  | false => [(7, .ofLength 0 8 true (.ofSeconds 20)), (7, .ofLength 8 8 false (.ofSeconds 5)),
      (7, .ofLength 0 8 true (.ofSeconds 10))]
  | true => [(8, .ofLength 0 8 true (.ofSeconds 30)), (9, .ofLength 0 4 false .zero)]

def oneByOne : List (Request Bool Nat) :=
  (traffic false).map (fun offered => ⟨false, offered.1, offered.2⟩) ++
    (traffic true).map (fun offered => ⟨true, offered.1, offered.2⟩)

def inTurns : List (Request Bool Nat) :=
  [⟨true, 8, .ofLength 0 8 true (.ofSeconds 30)⟩, ⟨false, 7, .ofLength 0 8 true (.ofSeconds 20)⟩,
    ⟨true, 9, .ofLength 0 4 false .zero⟩, ⟨false, 7, .ofLength 8 8 false (.ofSeconds 5)⟩,
    ⟨false, 7, .ofLength 0 8 true (.ofSeconds 10)⟩]

theorem traffic_unseen :
    Interleaves traffic oneByOne ∧ Interleaves traffic inTurns ∧
      (ofConfig parity {}).Roomy (oneByOne.map Request.operation) ∧
      (ofConfig parity {}).Roomy (inTurns.map Request.operation) ∧
      ∀ key, seenBy key ((ofConfig parity {}).eventsOf (oneByOne.map Request.operation)) =
        seenBy key ((ofConfig parity {}).eventsOf (inTurns.map Request.operation)) := by
  have hone : Interleaves traffic oneByOne := by
    unfold Interleaves
    decide
  have hturns : Interleaves traffic inTurns := by
    unfold Interleaves
    decide
  have hroom : (ofConfig parity {}).Roomy (oneByOne.map Request.operation) := by decide
  have hroom' : (ofConfig parity {}).Roomy (inTurns.map Request.operation) := by decide
  exact ⟨hone, hturns, hroom, hroom',
    (interleaving_unseen parity {} (by decide) (by decide) hone hturns hroom hroom').1⟩

end Traffic

end ShardedAssembler

end Dissection
