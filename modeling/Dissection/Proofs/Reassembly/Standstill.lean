import Dissection.Proofs.Reassembly.Delivery
import Dissection.Proofs.Reassembly.Sharding

/-!
# While nothing expires

When all fragments come within one window of each other, no sequence times out and no end is
forgotten, whatever the clock shows. All that matters to a key then is whether it has an open
sequence, or had one before: its state, its events and what is counted for it follow from its own
fragments in their order.
-/

namespace Dissection

variable {κ : Type}

open AssemblyEvent (seenBy seenBy_append)

/-- What there is to know of a key. -/
inductive KeyState (κ : Type) where
  | unseen
  | collecting (sequence : FragmentSequence κ)
  /-- The last sequence of the key is complete. -/
  | ended

namespace KeyState

def target (key : κ) (time : Timestamp) : KeyState κ → FragmentSequence κ
  | .collecting sequence => sequence
  | .unseen => .start key time 0
  | .ended => .start key time 0

def opening (key : κ) (time : Timestamp) : KeyState κ → List (AssemblyEvent κ)
  | .collecting _ => []
  | .unseen => [.sequenceStart key time]
  | .ended => [.sequenceStart key time]

def openingTally : KeyState κ → AssemblyStats
  | .collecting _ => 0
  | .unseen => { sequencesStarted := 1 }
  | .ended => { sequencesStarted := 1, lateFragments := 1 }

/-- The state after a fragment was added to the sequence. -/
def grown (sequence : FragmentSequence κ) (fragment : Fragment) : KeyState κ :=
  if sequence.retains fragment then .collecting sequence
  else if (sequence.extended fragment).IsCovered then .ended
  else .collecting (sequence.extended fragment)

def sequence? : KeyState κ → Option (FragmentSequence κ)
  | .collecting sequence => some sequence
  | .unseen => none
  | .ended => none

end KeyState

def FragmentSequence.reported (sequence : FragmentSequence κ) (fragment : Fragment) :
    List (AssemblyEvent κ) :=
  if sequence.retains fragment then []
  else .newFragment sequence.key fragment.offset fragment.length ::
    if (sequence.extended fragment).IsCovered then
      [.complete { sequence.extended fragment with status := .complete }]
    else []

/-- All that has become of a key. -/
structure KeyRecord (κ : Type) where
  state : KeyState κ := .unseen
  events : List (AssemblyEvent κ) := []
  stats : AssemblyStats := 0

namespace KeyRecord

def insert (config : AssemblyConfig) (key : κ) (record : KeyRecord κ) (fragment : Fragment) :
    KeyRecord κ :=
  let target := record.state.target key fragment.timestamp
  let stored := config.stored fragment
  { state := .grown target stored
    events := record.events ++
      (record.state.opening key fragment.timestamp ++ target.reported stored)
    stats := record.stats + (record.state.openingTally + target.tally stored) }

/-- What becomes of a key by its fragments. -/
def ofFragments (config : AssemblyConfig) (key : κ) (fragments : List Fragment) : KeyRecord κ :=
  fragments.foldl (insert config key) {}

theorem ofFragments_concat (config : AssemblyConfig) (key : κ) (fragments : List Fragment)
    (last : Fragment) :
    ofFragments config key (fragments ++ [last]) =
      (ofFragments config key fragments).insert config key last := by
  rw [ofFragments, List.foldl_append]
  rfl

theorem not_timeout (config : AssemblyConfig) (key : κ) (fragments : List Fragment)
    (sequence : FragmentSequence κ) :
    .timeout sequence ∉ (ofFragments config key fragments).events := by
  induction fragments using List.reverseRecOn with
  | nil => exact List.not_mem_nil
  | append_singleton fragments last ih =>
    rw [ofFragments_concat, insert, List.mem_append, not_or]
    refine ⟨ih, ?_⟩
    rw [List.mem_append, not_or]
    constructor
    · cases (ofFragments config key fragments).state <;> simp [KeyState.opening]
    · unfold FragmentSequence.reported
      split
      · exact List.not_mem_nil
      · split <;> simp

end KeyRecord

namespace Assembler

variable [DecidableEq κ]

def keyState (assembler : Assembler κ) (key : κ) : KeyState κ :=
  match assembler.shown? key with
  | some sequence => .collecting sequence
  | none => if assembler.isRecentlyClosed key then .ended else .unseen

theorem sequence?_keyState (assembler : Assembler κ) (key : κ) :
    (assembler.keyState key).sequence? = assembler.shown? key := by
  unfold keyState
  split
  · next h => exact h.symm
  · next h =>
    rw [h]
    split <;> rfl

section Key

variable {assembler : Assembler κ} {key : κ}

theorem keyState_of_open {sequence : FragmentSequence κ} (h : assembler.get? key = some sequence) :
    assembler.keyState key = .collecting sequence.unnumbered := by
  rw [keyState, shown?, h]
  rfl

theorem keyState_of_closed (h : assembler.get? key = none) :
    assembler.keyState key = if assembler.isRecentlyClosed key then .ended else .unseen := by
  rw [keyState, shown?, h]
  rfl

theorem Alike.keyState_eq {a b : Assembler κ} (h : Alike key a b) :
    a.keyState key = b.keyState key := by
  rw [keyState, keyState, h.sequence_eq, isRecentlyClosed_eq, isRecentlyClosed_eq, h.closings_eq]

/-- Opening a sequence does to the key what its state says. -/
theorem ensureOpen_of_keyState (hroom : assembler.HasRoomFor key) (time : Timestamp) :
    (∃ sequence, (assembler.ensureOpen key time).1.get? key = some sequence ∧
        sequence.unnumbered = (assembler.keyState key).target key time) ∧
      seenBy key (assembler.ensureOpen key time).2 = (assembler.keyState key).opening key time ∧
      (assembler.ensureOpen key time).1.stats =
        assembler.stats + (assembler.keyState key).openingTally := by
  rw [stats_ensureOpen hroom, get?_ensureOpen, openingTally]
  cases hopen : assembler.get? key with
  | some sequence =>
    rw [ensureOpen_of_open hopen, keyState_of_open hopen]
    exact ⟨⟨sequence, rfl, rfl⟩, rfl, rfl⟩
  | none =>
    rw [seenBy, ofKey_ensureOpen_of_closed hopen, keyState_of_closed hopen]
    cases assembler.isRecentlyClosed key <;> exact ⟨⟨_, rfl, rfl⟩, rfl, rfl⟩

theorem closings_ensureOpen_subset (hroom : assembler.HasRoomFor key) (time : Timestamp) :
    (assembler.ensureOpen key time).1.closings ⊆ assembler.closings := by
  cases hopen : assembler.get? key with
  | some sequence =>
    rw [ensureOpen_of_open hopen]
    exact List.Subset.refl _
  | none =>
    rw [ensureOpen_of_closed hopen, openSequence, hroom.makeRoom_eq hopen]
    exact List.filter_subset_self _

/-- Adding a fragment does to the key what its sequence says. -/
theorem addFragment_of_sequence (hdistinct : assembler.DistinctKeys)
    {sequence : FragmentSequence κ} (hopen : assembler.get? key = some sequence)
    (fragment : Fragment) :
    (assembler.addFragment key fragment).1.keyState key = .grown sequence.unnumbered fragment ∧
      seenBy key (assembler.addFragment key fragment).2 =
        sequence.unnumbered.reported fragment ∧
      (assembler.addFragment key fragment).1.stats =
        assembler.stats + sequence.unnumbered.tally fragment := by
  have hkey : sequence.unnumbered.key = key := (get?_mem hopen).2
  refine ⟨?_, ?_, stats_addFragment hopen fragment⟩
  · have hretains : sequence.unnumbered.retains fragment = sequence.retains fragment := rfl
    have hextended : sequence.unnumbered.extended fragment =
        (sequence.extended fragment).unnumbered := rfl
    have hcovered : (sequence.extended fragment).unnumbered.IsCovered ↔
        (sequence.extended fragment).IsCovered := Iff.rfl
    by_cases hends : sequence.retains fragment = false ∧ (sequence.extended fragment).IsCovered
    · rw [keyState_of_closed (get?_addFragment_of_covered hopen hends.1 hends.2), KeyState.grown,
        hretains, hextended, hends.1, if_neg Bool.false_ne_true, if_pos (hcovered.2 hends.2),
        isRecentlyClosed, closings_addFragment hopen, if_pos hends]
      simp
    · have hgrows (hnew : sequence.retains fragment = false) :
          ¬ (sequence.extended fragment).IsCovered := fun hall => hends ⟨hnew, hall⟩
      rw [keyState_of_open (get?_addFragment hdistinct hopen hgrows), KeyState.grown, hretains,
        hextended]
      cases hnew : sequence.retains fragment with
      | true => rfl
      | false =>
        rw [if_neg Bool.false_ne_true, if_neg Bool.false_ne_true,
          if_neg (fun hall => hgrows hnew (hcovered.1 hall))]
  · rw [seenBy_addFragment hopen, FragmentSequence.reported, hkey]
    rfl

end Key

/-- All that an assembler knows of is as old as some of the times. -/
structure Recent (times : List Timestamp) (assembler : Assembler κ) : Prop where
  regular : assembler.Regular
  clock : assembler.now ∈ Timestamp.zero :: times
  active : ∀ sequence ∈ assembler.sequences, sequence.lastFragmentAt ∈ times
  ended : ∀ closing ∈ assembler.closings, closing.time ∈ times

omit [DecidableEq κ] in
theorem recent_ofConfig (config : AssemblyConfig) (times : List Timestamp) :
    (ofConfig config : Assembler κ).Recent times :=
  ⟨regular_ofConfig config, List.mem_cons_self, by simp [ofConfig], by simp [ofConfig]⟩

section Recent

variable {times : List Timestamp} {assembler : Assembler κ} (h : assembler.Recent times)
  {time : Timestamp} (htime : time ∈ times)

include h htime

omit [DecidableEq κ] in
theorem Recent.max_mem : max assembler.now time ∈ times := by
  rcases List.mem_cons.1 h.clock with hzero | hmem
  · have hmax : max assembler.now time = time :=
      Timestamp.max_eq_right (hzero ▸ Nat.zero_le time.micros)
    rwa [hmax]
  · rcases Timestamp.max_eq_or assembler.now time with hmax | hmax
    · rwa [hmax]
    · rwa [hmax]

variable (hwindow : ∀ early ∈ times, ∀ late ∈ times,
  (late.since early).nanos ≤ assembler.config.window.nanos)

include hwindow

omit [DecidableEq κ] in
/-- The advance to such a time moves the clock and does nothing else. -/
theorem Recent.advance_eq :
    assembler.advance time = ({ assembler with clock := assembler.clock.observe time }, []) := by
  have hcurrent {early : Timestamp} (hearly : early ∈ times) :
      isExpired (max assembler.now time) early assembler.config.window = false :=
    isExpired_eq_false_iff.2 (hwindow early hearly _ (h.max_mem htime))
  have hremembered : assembler.closings.dropWhile (fun closing =>
        isExpired (max assembler.now time) closing.time assembler.config.window) =
      assembler.closings := by
    rw [dropWhile_eq_filter (h.regular.closings_sorted.imp (fun hle => isExpired_of_le hle)),
      List.filter_eq_self]
    intro closing hclosing
    rw [hcurrent (h.ended closing hclosing)]
    rfl
  have hnone : Idle.overdue (max assembler.now time) assembler.config.window
      assembler.sequences = [] := by
    rw [h.regular.sorted.overdue_eq_filter, List.filter_eq_nil_iff]
    intro sequence hsequence
    rw [Bool.not_eq_true]
    exact hcurrent (h.active sequence hsequence)
  have hall := Idle.overdue_append_current (max assembler.now time) assembler.config.window
    assembler.sequences
  rw [hnone, List.nil_append] at hall
  have hnow : (assembler.clock.observe time).now = max assembler.now time := rfl
  simp only [Assembler.advance, hnow, hremembered, hnone, hall, timeOut, close, List.map_nil,
    List.append_nil, List.length_nil, Nat.add_zero]

variable {fragment : Fragment} (hfragment : fragment.timestamp = time) {key : κ}
  (hroom : assembler.HasRoomFor key)

include hfragment hroom

/-- An insertion does to its key what the state of the key says. -/
theorem Recent.insert_key :
    let target := (assembler.keyState key).target key fragment.timestamp
    let stored := assembler.config.stored fragment
    (assembler.insert key fragment).1.keyState key = .grown target stored ∧
      seenBy key (assembler.insert key fragment).2 =
        (assembler.keyState key).opening key fragment.timestamp ++ target.reported stored ∧
      (assembler.insert key fragment).1.stats =
        assembler.stats + ((assembler.keyState key).openingTally + target.tally stored) := by
  subst hfragment
  have hadvance := h.advance_eq htime hwindow
  let moved : Assembler κ := { assembler with clock := assembler.clock.observe fragment.timestamp }
  have hdistinct : (assembler.ready key fragment.timestamp).DistinctKeys :=
    h.regular.distinct.ready key fragment.timestamp
  have hroomy : moved.HasRoomFor key := hroom
  obtain ⟨⟨sequence, hopen, htarget⟩, hopening, htally⟩ :=
    ensureOpen_of_keyState hroomy fragment.timestamp
  have hready : assembler.ready key fragment.timestamp =
      (moved.ensureOpen key fragment.timestamp).1 := by rw [ready, hadvance]
  rw [← hready] at hopen htally
  obtain ⟨hstate, hreported, hstats⟩ := addFragment_of_sequence hdistinct hopen
    (assembler.config.stored fragment)
  have hevents : assembler.opening key fragment.timestamp =
      (moved.ensureOpen key fragment.timestamp).2 := by
    rw [Assembler.opening, hadvance, List.nil_append]
  rw [htarget] at hstate hreported hstats
  rw [insert_eq, hevents, seenBy_append, hopening, hreported]
  refine ⟨hstate, rfl, ?_⟩
  rw [hstats, htally, add_assoc]
  rfl

theorem Recent.insert_other {other : κ} (hne : key ≠ other) :
    (assembler.insert key fragment).1.keyState other = assembler.keyState other ∧
      seenBy other (assembler.insert key fragment).2 = [] := by
  subst hfragment
  have hadvance := h.advance_eq htime hwindow
  have hroomy : (assembler.advance fragment.timestamp).1.HasRoomFor key := by
    rw [hadvance]
    exact hroom
  have halike := alike_insert_of_ne hne h.regular fragment hroomy
  rw [hadvance] at halike
  exact ⟨halike.assemblers.keyState_eq, halike.events⟩

theorem Recent.insert : (assembler.insert key fragment).1.Recent times := by
  subst hfragment
  have hadvance := h.advance_eq htime hwindow
  have hnow := h.max_mem htime
  have hactive : (assembler.target key fragment.timestamp).lastFragmentAt ∈ times := by
    rw [target, hadvance]
    cases hopen : Assembler.get? { assembler with
        clock := assembler.clock.observe fragment.timestamp } key with
    | none => exact htime
    | some sequence => exact h.active sequence (get?_mem hopen).1
  refine ⟨h.regular.apply (.insert key fragment), ?_, ?_, ?_⟩
  · rw [now_insert]
    exact List.mem_cons_of_mem _ hnow
  · intro sequence hsequence
    rcases mem_sequences_insert h.regular.distinct hsequence with ⟨hmem, _⟩ | ⟨_, rfl⟩ | ⟨_, rfl⟩
    · exact h.active sequence hmem
    · exact hactive
    · change max (assembler.target key fragment.timestamp).lastFragmentAt
        (assembler.config.stored fragment).timestamp ∈ times
      rw [timestamp_stored]
      rcases Timestamp.max_eq_or (assembler.target key fragment.timestamp).lastFragmentAt
        fragment.timestamp with hmax | hmax
      · rwa [hmax]
      · rwa [hmax]
  · intro closing hclosing
    let moved : Assembler κ :=
      { assembler with clock := assembler.clock.observe fragment.timestamp }
    have hroomy : moved.HasRoomFor key := hroom
    have hready : (assembler.ready key fragment.timestamp).closings ⊆ assembler.closings := by
      rw [ready, hadvance]
      exact closings_ensureOpen_subset hroomy _
    rw [insert_eq, closings_addFragment (assembler.get?_ready key fragment.timestamp), now_ready]
      at hclosing
    rcases List.mem_append.1 hclosing with hmem | hmem
    · exact h.ended closing (hready hmem)
    · split at hmem
      · rw [List.mem_singleton.1 hmem]
        exact hnow
      · cases hmem

end Recent

end Assembler

end Dissection
