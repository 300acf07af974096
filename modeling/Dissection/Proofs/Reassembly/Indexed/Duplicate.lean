import Dissection.Proofs.Reassembly.Indexed.Run
import Dissection.Proofs.Reassembly.Sharding

/-!
# Duplicates leave no trace

A fragment of a range that the sequence of its key retains already is dropped, whatever else it
says: the insertion is an advance of the clock, but for two counters. Counters are only written, so
an assembler that has counted more goes on like any other, and nobody who watches its events will
ever know of the duplicate.
-/

namespace Dissection

variable {κ : Type}

/-- Whether a fragment is retained does not depend on its bytes. -/
theorem FragmentSequence.retains_stored (sequence : FragmentSequence κ) (config : AssemblyConfig)
    (fragment : Fragment) :
    sequence.retains (config.stored fragment) = sequence.retains fragment := by
  unfold AssemblyConfig.stored
  split <;> rfl

/-- What a fragment counts that the sequence did not retain. -/
def FragmentSequence.growthTally (sequence : FragmentSequence κ) (fragment : Fragment) :
    AssemblyStats :=
  { fragments := 1, overlaps := if sequence.isOverlappedBy fragment then 1 else 0 }

namespace IndexedAssembler

/-- The assembler, had it counted more. -/
def counted (extra : AssemblyStats) (indexed : IndexedAssembler κ) : IndexedAssembler κ :=
  { indexed with stats := indexed.stats + extra }

def countedResult {α : Type} (extra : AssemblyStats) (result : IndexedAssembler κ × α) :
    IndexedAssembler κ × α :=
  (result.1.counted extra, result.2)

@[simp] theorem config_counted (extra : AssemblyStats) (indexed : IndexedAssembler κ) :
    (indexed.counted extra).config = indexed.config := rfl

@[simp] theorem size_counted (extra : AssemblyStats) (indexed : IndexedAssembler κ) :
    (indexed.counted extra).size = indexed.size := rfl

@[simp] theorem idleOrder_counted (extra : AssemblyStats) (indexed : IndexedAssembler κ) :
    (indexed.counted extra).idleOrder = indexed.idleOrder := rfl

@[simp] theorem get?_counted [DecidableEq κ] (extra : AssemblyStats) (indexed : IndexedAssembler κ)
    (key : κ) : (indexed.counted extra).get? key = indexed.get? key := rfl

/-- It does not matter what is counted first. -/
theorem counted_counted (indexed : IndexedAssembler κ) (extra counts : AssemblyStats) :
    (indexed.counted extra).counted counts = (indexed.counted counts).counted extra := by
  simp only [counted, add_right_comm]

section Equations

variable [DecidableEq κ] {indexed : IndexedAssembler κ} {key : κ} {fragment : Fragment}

theorem evictOldest_of_nil (h : indexed.idleOrder = []) : indexed.evictOldest = (indexed, none) := by
  rw [evictOldest]
  split
  · rfl
  · next hslots => simp [h] at hslots

theorem addFragment_of_closed (h : indexed.get? key = none) :
    indexed.addFragment key fragment = (indexed.counted { fragments := 1 }, []) := by
  rw [addFragment, h]
  rfl

variable {sequence : FragmentSequence κ} (hopen : indexed.get? key = some sequence)

include hopen

theorem addFragment_of_retains (h : sequence.retains fragment = true) :
    indexed.addFragment key fragment =
      (indexed.counted { fragments := 1, duplicates := 1 }, []) := by
  rw [addFragment, hopen]
  simp only [FragmentSequence.place_of_retains h]
  rfl

theorem addFragment_of_not_retains (h : sequence.retains fragment = false) :
    let grown := sequence.extended fragment
    let placed := { indexed with
      sequences := indexed.sequences.insert key grown
      idleOrder := indexed.reindex key sequence grown }
    let settled := (placed.counted (sequence.growthTally fragment)).settle key grown
    indexed.addFragment key fragment =
      (settled.1, .newFragment key fragment.offset fragment.length :: settled.2) := by
  intro grown placed settled
  rw [addFragment, hopen]
  simp only [FragmentSequence.place_of_not_retains h]
  unfold settled FragmentSequence.growthTally
  cases sequence.isOverlappedBy fragment <;> rfl

end Equations

section Counted

variable [DecidableEq κ] (extra : AssemblyStats) (indexed : IndexedAssembler κ)

theorem timeOut_counted (key : κ) :
    (indexed.counted extra).timeOut key = countedResult extra (indexed.timeOut key) := by
  rw [timeOut, timeOut, get?_counted]
  cases indexed.get? key with
  | none => rfl
  | some sequence =>
    let swept := { indexed with
      sequences := indexed.sequences.erase key
      idleOrder := SequenceSlot.unfile sequence indexed.idleOrder }.markClosed key
    exact congrArg (·, _) (swept.counted_counted extra (.timeouts 1))

theorem timeOutAll_counted (keys : List κ) :
    timeOutAll keys (indexed.counted extra) = countedResult extra (timeOutAll keys indexed) := by
  induction keys generalizing indexed with
  | nil => rfl
  | cons key rest ih =>
    rw [timeOutAll, timeOutAll, timeOut_counted]
    exact congrArg (fun flushed : _ × _ => (flushed.1, _ ++ flushed.2))
      (ih (indexed.timeOut key).1)

theorem expire_counted :
    (indexed.counted extra).expire = countedResult extra indexed.expire := by
  induction indexed using expire.induct with
  | case1 indexed hslots =>
    have hcounted := (indexed.idleOrder_counted extra).trans hslots
    rw [expire_of_nil hcounted, expire_of_nil hslots]
    rfl
  | case2 indexed oldest later hslots hoverdue swept ih =>
    -- the front slot is out of the index before its sequence times out
    have hswept : { indexed.counted extra with idleOrder := later }.timeOut oldest.key =
        countedResult extra swept :=
      timeOut_counted extra { indexed with idleOrder := later } oldest.key
    have hcounted := (indexed.idleOrder_counted extra).trans hslots
    rw [expire_of_overdue hcounted hoverdue, expire_of_overdue hslots hoverdue, hswept]
    exact congrArg (fun rest : _ × _ => (rest.1, swept.2.toList ++ rest.2)) ih
  | case3 indexed oldest later hslots hcurrent =>
    have hcurrent := Bool.eq_false_iff.2 hcurrent
    have hcounted := (indexed.idleOrder_counted extra).trans hslots
    rw [expire_of_current hcounted hcurrent, expire_of_current hslots hcurrent]
    rfl

theorem advance_counted (time : Timestamp) :
    (indexed.counted extra).advance time = countedResult extra (indexed.advance time) :=
  expire_counted extra { indexed with
    clock := indexed.clock.observe time
    closedOrder := (forget (indexed.clock.observe time).now indexed.config.window
      indexed.closedOrder indexed.recentlyClosed).1
    recentlyClosed := (forget (indexed.clock.observe time).now indexed.config.window
      indexed.closedOrder indexed.recentlyClosed).2 }

theorem flush_counted : (indexed.counted extra).flush = countedResult extra indexed.flush :=
  timeOutAll_counted extra indexed _

theorem evictOldest_counted :
    (indexed.counted extra).evictOldest = countedResult extra indexed.evictOldest := by
  have hcounted := indexed.idleOrder_counted extra
  cases hslots : indexed.idleOrder with
  | nil =>
    rw [evictOldest_of_nil hslots, evictOldest_of_nil (hcounted.trans hslots)]
    rfl
  | cons oldest later =>
    rw [evictOldest_of_cons hslots, evictOldest_of_cons (hcounted.trans hslots), ← timeOut_counted]
    exact congrArg (timeOut · oldest.key) (indexed.counted_counted extra { evicted := 1 })

theorem makeRoom_counted :
    (indexed.counted extra).makeRoom = countedResult extra indexed.makeRoom := by
  by_cases hfull : indexed.config.maxSequences ≤ indexed.size
  · rw [makeRoom, makeRoom, config_counted, size_counted, if_pos hfull, if_pos hfull,
      evictOldest_counted]
  · rw [makeRoom, makeRoom, config_counted, size_counted, if_neg hfull, if_neg hfull]
    rfl

theorem reopened_counted (key : κ) :
    (indexed.counted extra).reopened key = (indexed.reopened key).counted extra :=
  counted_counted { indexed with recentlyClosed := indexed.recentlyClosed.erase key } extra
    { lateFragments := if (indexed.recentlyClosed.find? key).isSome then 1 else 0 }

theorem openSequence_counted (key : κ) (time : Timestamp) :
    (indexed.counted extra).openSequence key time =
      countedResult extra (indexed.openSequence key time) := by
  rw [openSequence, openSequence, reopened_counted, makeRoom_counted]
  let roomy := (indexed.reopened key).makeRoom.1
  let sequence := FragmentSequence.start key time roomy.opened
  let opened := { roomy with
    sequences := roomy.sequences.insert key sequence
    idleOrder := SequenceSlot.file key sequence roomy.idleOrder
    opened := roomy.opened + 1 }
  exact congrArg (·, _) (opened.counted_counted extra { sequencesStarted := 1 })

theorem ensureOpen_counted (key : κ) (time : Timestamp) :
    (indexed.counted extra).ensureOpen key time =
      countedResult extra (indexed.ensureOpen key time) := by
  rw [ensureOpen, ensureOpen, get?_counted]
  cases indexed.get? key with
  | none => exact openSequence_counted extra indexed key time
  | some sequence => rfl

theorem settle_counted (key : κ) (sequence : FragmentSequence κ) :
    (indexed.counted extra).settle key sequence =
      countedResult extra (indexed.settle key sequence) := by
  by_cases hcovered : sequence.IsCovered
  · rw [settle, settle, if_pos hcovered, if_pos hcovered]
    let ended := { indexed with
      sequences := indexed.sequences.erase key
      idleOrder := SequenceSlot.unfile sequence indexed.idleOrder }.markClosed key
    exact congrArg (·, _) (ended.counted_counted extra { completed := 1 })
  · rw [settle, settle, if_neg hcovered, if_neg hcovered]
    rfl

theorem addFragment_counted (key : κ) (fragment : Fragment) :
    (indexed.counted extra).addFragment key fragment =
      countedResult extra (indexed.addFragment key fragment) := by
  have hcounted := indexed.get?_counted extra key
  cases hget : indexed.get? key with
  | none =>
    rw [addFragment_of_closed hget, addFragment_of_closed (hcounted.trans hget), counted_counted]
    rfl
  | some sequence =>
    cases hretains : sequence.retains fragment with
    | true =>
      rw [addFragment_of_retains hget hretains,
        addFragment_of_retains (hcounted.trans hget) hretains, counted_counted]
      rfl
    | false =>
      let grown := sequence.extended fragment
      let placed := { indexed with
        sequences := indexed.sequences.insert key grown
        idleOrder := indexed.reindex key sequence grown }
      have hsettled : ((placed.counted extra).counted (sequence.growthTally fragment)).settle key
          grown = countedResult extra
            ((placed.counted (sequence.growthTally fragment)).settle key grown) := by
        rw [counted_counted]
        exact settle_counted extra _ key grown
      rw [addFragment_of_not_retains hget hretains,
        addFragment_of_not_retains (hcounted.trans hget) hretains]
      exact congrArg (fun settled : _ × _ => (settled.1, _ :: settled.2)) hsettled

theorem insert_counted (key : κ) (fragment : Fragment) :
    (indexed.counted extra).insert key fragment =
      countedResult extra (indexed.insert key fragment) := by
  simp only [insert, advance_counted, countedResult, ensureOpen_counted, config_counted,
    addFragment_counted]

theorem apply_counted (operation : AssemblyOperation κ) :
    (indexed.counted extra).apply operation = countedResult extra (indexed.apply operation) := by
  cases operation with
  | insert key fragment => exact insert_counted extra indexed key fragment
  | advance time => exact advance_counted extra indexed time
  | flush => exact flush_counted extra indexed

/-- An assembler that has counted more answers the same to whatever it is asked. -/
theorem run_counted (operations : List (AssemblyOperation κ)) :
    (indexed.counted extra).calls operations = indexed.calls operations ∧
      (indexed.counted extra).after operations = (indexed.after operations).counted extra := by
  induction operations generalizing indexed with
  | nil => exact ⟨rfl, rfl⟩
  | cons operation rest ih =>
    rw [calls, calls, after, after, apply_counted]
    obtain ⟨hcalls, hafter⟩ := ih (indexed.apply operation).1
    exact ⟨congrArg _ hcalls, hafter⟩

end Counted

section Duplicate

variable [DecidableEq κ]

theorem insert_of_retains {indexed : IndexedAssembler κ} {key : κ} {fragment : Fragment}
    {sequence : FragmentSequence κ}
    (hopen : (indexed.advance fragment.timestamp).1.get? key = some sequence)
    (hretains : sequence.retains fragment = true) :
    indexed.insert key fragment =
      countedResult { fragments := 1, duplicates := 1 } (indexed.advance fragment.timestamp) := by
  have hready : (indexed.advance fragment.timestamp).1.ensureOpen key fragment.timestamp =
      ((indexed.advance fragment.timestamp).1, []) := by
    rw [ensureOpen, hopen]
  have hstored := (sequence.retains_stored indexed.config fragment).trans hretains
  simp only [insert, hready, addFragment_of_retains hopen hstored, List.append_nil]
  rfl

/-- An insertion of what is retained already returns what the clock advance returns, and changes
nothing else but two counters; no later call tells the two assemblers apart. -/
theorem duplicate_unseen (indexed : IndexedAssembler κ) (key : κ) (fragment : Fragment)
    {sequence : FragmentSequence κ}
    (hopen : (indexed.advance fragment.timestamp).1.get? key = some sequence)
    (hretained : ∃ retained ∈ sequence.fragments,
      retained.offset = fragment.offset ∧ retained.length = fragment.length) :
    let advanced := indexed.advance fragment.timestamp
    let inserted := indexed.insert key fragment
    inserted.2 = advanced.2 ∧
      inserted.1 = advanced.1.counted { fragments := 1, duplicates := 1 } ∧
      ∀ operations, inserted.1.calls operations = advanced.1.calls operations ∧
        inserted.1.after operations =
          (advanced.1.after operations).counted { fragments := 1, duplicates := 1 } := by
  intro advanced inserted
  have hinserted : inserted = countedResult { fragments := 1, duplicates := 1 } advanced :=
    insert_of_retains hopen (FragmentSequence.retains_iff.2 hretained)
  rw [hinserted]
  exact ⟨rfl, rfl, fun operations => run_counted _ advanced.1 operations⟩

/-- Two sequences, of which only the first is overdue after 40 s. -/
def beforeContrary : List (AssemblyOperation Nat) :=
  [.insert 1 (.ofPayload 0 [1, 2] true .zero), .insert 2 (.ofPayload 0 [3, 4] true (.ofSeconds 20))]

/-- The first two bytes for the second key again, but other ones, and as if no more followed. -/
def contrary : Fragment := .ofPayload 0 [5, 6] false (.ofSeconds 40)

theorem contrary_unseen :
    let indexed := (ofConfig {}).after beforeContrary
    let advanced := indexed.advance (.ofSeconds 40)
    advanced.2.map AssemblyEvent.key = [1] ∧ (indexed.insert 2 contrary).2 = advanced.2 ∧
      (indexed.insert 2 contrary).1 = advanced.1.counted { fragments := 1, duplicates := 1 } := by
  intro indexed advanced
  have hopen : advanced.1.get? 2 = some ((FragmentSequence.start 2 (.ofSeconds 20) 1).extended
      (.ofPayload 0 [3, 4] true (.ofSeconds 20))) := by decide +kernel
  have hunseen := duplicate_unseen indexed 2 contrary hopen
    ⟨.ofPayload 0 [3, 4] true (.ofSeconds 20), List.mem_singleton_self _, rfl, rfl⟩
  exact ⟨by decide +kernel, hunseen.1, hunseen.2.1⟩

end Duplicate

end IndexedAssembler

end Dissection
