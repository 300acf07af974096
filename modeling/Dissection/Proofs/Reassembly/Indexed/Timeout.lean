import Dissection.Proofs.Reassembly.Indexed.Run

/-!
# Which sequences time out

A sequence times out when it is idle for longer than the window, when it has to make room for a new
one, or when the assembler is flushed, and not otherwise. A sweep reads the index from the front and
stops at the first slot that is recent enough; since the index is in idle order, it misses nothing.
-/

namespace Dissection

variable {κ : Type}

def AssemblyEvent.isTimeout : AssemblyEvent κ → Bool
  | .timeout _ => true
  | _ => false

/-- A sequence idle for longer has the earlier deadline. -/
theorem FragmentSequence.deadline_le {a b : FragmentSequence κ}
    (h : a.lastFragmentAt ≤ b.lastFragmentAt) (window : Duration) :
    a.deadline window ≤ b.deadline window := by
  rw [Timestamp.le_def] at h ⊢
  simp only [deadline, Timestamp.micros_after]
  exact Nat.le_min.2 ⟨Nat.le_trans (Nat.min_le_left _ _) (Nat.add_le_add_right h _),
    Nat.min_le_right _ _⟩

namespace Assembler

theorem filter_isTimeout_timeouts {events : List (AssemblyEvent κ)}
    (h : ∀ event ∈ events, ∃ sequence, event = .timeout sequence) :
    events.filter AssemblyEvent.isTimeout = events := by
  rw [List.filter_eq_self]
  intro event hevent
  obtain ⟨sequence, rfl⟩ := h event hevent
  rfl

variable [DecidableEq κ] {assembler : Assembler κ}

theorem filter_isTimeout_reported (assembler : Assembler κ) (key : κ) (fragment : Fragment) :
    (assembler.reported key fragment).filter AssemblyEvent.isTimeout = [] := by
  unfold reported
  split
  · rfl
  · split <;> rfl

theorem Regular.mem_overdue (h : assembler.Regular) {now : Timestamp} {limit : Duration}
    {sequence : FragmentSequence κ} :
    sequence ∈ Idle.overdue now limit assembler.sequences ↔
      assembler.get? sequence.key = some sequence ∧
        isExpired now sequence.lastFragmentAt limit = true := by
  rw [h.sorted.overdue_eq_filter, List.mem_filter, h.distinct.get?_eq_some_iff]
  exact and_congr_left' (and_iff_left rfl).symm

section Full

variable {first : FragmentSequence κ} {rest : List (FragmentSequence κ)}
  (hfull : ¬ assembler.size < assembler.config.maxSequences)
  (hsequences : assembler.sequences = first :: rest)

include hfull hsequences

theorem events_openSequence_of_full (key : κ) (time : Timestamp) :
    (assembler.openSequence key time).2 =
      [.timeout { first with status := .timedOut }, .sequenceStart key time] := by
  rw [events_openSequence, makeRoom_of_full hfull hsequences]
  rfl

theorem get?_makeRoom_of_full (hdistinct : assembler.DistinctKeys) (other : κ) :
    assembler.makeRoom.1.get? other =
      if other = first.key then none else assembler.get? other := by
  have hothers : assembler.makeRoom.1.sequences = assembler.others first.key := by
    rw [makeRoom_of_full hfull hsequences, others_first hdistinct hsequences]
    rfl
  split
  · next hfirst =>
    rw [get?_eq_none_iff, hothers, hfirst]
    exact fun sequence hsequence => (mem_others.1 hsequence).2
  · next hne =>
    refine get?_congr (hdistinct.sublist assembler.sequences_makeRoom_sublist) hdistinct ?_
    intro sequence hkey
    rw [hothers, mem_others, hkey]
    exact and_iff_left hne

end Full

section Insert

variable {key : κ} {fragment : Fragment} {first : FragmentSequence κ}
  {rest : List (FragmentSequence κ)}
  (hclosed : (assembler.advance fragment.timestamp).1.get? key = none)
  (hfull : ¬ (assembler.advance fragment.timestamp).1.size < assembler.config.maxSequences)
  (hsequences : (assembler.advance fragment.timestamp).1.sequences = first :: rest)

include hclosed hfull hsequences

theorem timeouts_insert_of_full :
    (assembler.insert key fragment).2.filter AssemblyEvent.isTimeout =
      (assembler.advance fragment.timestamp).2 ++
        [.timeout { first with status := .timedOut }] := by
  rw [events_insert, opening, ensureOpen_of_closed hclosed,
    events_openSequence_of_full hfull hsequences, List.filter_append, List.filter_append,
    filter_isTimeout_timeouts (assembler.events_advance_timeout fragment.timestamp),
    filter_isTimeout_reported, List.append_nil]
  rfl

theorem get?_insert_of_full (hdistinct : assembler.DistinctKeys) {other : κ} (hne : other ≠ key) :
    (assembler.insert key fragment).1.get? other =
      if other = first.key then none
      else (assembler.advance fragment.timestamp).1.get? other := by
  have hadvanced : (assembler.advance fragment.timestamp).1.DistinctKeys :=
    hdistinct.sublist (assembler.sequences_advance_sublist fragment.timestamp)
  calc (assembler.insert key fragment).1.get? other
    _ = (assembler.ready key fragment.timestamp).get? other :=
      get?_addFragment_of_ne hne.symm (hdistinct.ready key fragment.timestamp)
        (assembler.get?_ready key fragment.timestamp) _
    _ = (assembler.advance fragment.timestamp).1.makeRoom.1.get? other := by
      rw [ready, ensureOpen_of_closed hclosed]
      exact get?_openSequence_of_ne hne.symm hadvanced hclosed _
    _ = _ := get?_makeRoom_of_full hfull hsequences hadvanced other

end Insert

end Assembler

namespace IndexedAssembler

variable [DecidableEq κ]

/-- The call reports the timeouts of the open sequences with a property, in the given order, and
nothing else. The other sequences stay as they were. -/
structure TimesOut (indexed : IndexedAssembler κ) (property : FragmentSequence κ → Bool)
    (before : FragmentSequence κ → FragmentSequence κ → Prop)
    (result : IndexedAssembler κ × List (AssemblyEvent κ)) : Prop where
  reported : ∃ ended : List (FragmentSequence κ),
    result.2 = ended.map (fun sequence => .timeout { sequence with status := .timedOut }) ∧
      ended.Pairwise before ∧
      ∀ sequence, sequence ∈ ended ↔
        indexed.get? sequence.key = some sequence ∧ property sequence = true
  kept : ∀ key, result.1.get? key = (indexed.get? key).filter (!property ·)

/-- The sequence is open and comes before all other open ones in idle order. -/
structure IsOldest (indexed : IndexedAssembler κ) (oldest : FragmentSequence κ) : Prop where
  isOpen : indexed.get? oldest.key = some oldest
  before : ∀ key sequence, indexed.get? key = some sequence →
    sequence = oldest ∨ Idle.Before oldest sequence

section Result

variable {indexed : IndexedAssembler κ} {assembler : Assembler κ}
  (h : indexed.Represents assembler) (horder : assembler.InOrder)

include h horder

theorem Represents.advance_timesOut (hregular : assembler.Regular) (time : Timestamp) :
    indexed.TimesOut
      (fun sequence =>
        isExpired (max indexed.now time) sequence.lastFragmentAt indexed.config.window)
      Idle.Before (indexed.advance time) := by
  have hadvanced := h.advance hregular horder time
  rw [h.config_eq, h.now_eq]
  constructor
  · refine ⟨_, hadvanced.events.trans (assembler.events_advance time), ?_, ?_⟩
    · exact horder.ordered.sublist (List.takeWhile_sublist _)
    · intro sequence
      rw [hregular.mem_overdue, h.get?_eq horder.distinct]
  · intro key
    rw [hadvanced.assembler.get?_eq (horder.advance time).distinct, h.get?_eq horder.distinct]
    exact hregular.get?_advance key time

theorem Represents.flush_timesOut :
    indexed.TimesOut (fun _ => true) (fun a b => a.serial < b.serial) indexed.flush := by
  have hflushed := h.flush horder
  constructor
  · refine ⟨_, hflushed.events, Assembler.pairwise_inOpeningOrder horder.serials, ?_⟩
    intro sequence
    rw [(Assembler.perm_inOpeningOrder assembler.sequences).mem_iff,
      h.get?_eq_some_iff]
    simp
  · intro key
    rw [hflushed.assembler.get?_eq horder.flush.distinct]
    simp [Assembler.flush, Assembler.timeOut, Assembler.get?]

theorem Represents.isOldest_first {first : FragmentSequence κ} {rest : List (FragmentSequence κ)}
    (hsequences : assembler.sequences = first :: rest) : indexed.IsOldest first := by
  have hordered := horder.ordered
  rw [hsequences] at hordered
  constructor
  · exact h.get?_eq_some_iff.2 ⟨hsequences ▸ List.mem_cons_self, rfl⟩
  · intro key sequence hopen
    have hmem := (h.get?_eq_some_iff.1 hopen).1
    rw [hsequences] at hmem
    exact (List.mem_cons.1 hmem).imp_right ((List.pairwise_cons.1 hordered).1 sequence)

/-- The oldest sequence makes room for a new one. -/
theorem Represents.insert_evicts (hregular : assembler.Regular) {key : κ} {fragment : Fragment}
    (hnew : (indexed.advance fragment.timestamp).1.get? key = none)
    (hfull : indexed.config.maxSequences ≤ (indexed.advance fragment.timestamp).1.size)
    (hany : 0 < (indexed.advance fragment.timestamp).1.size) :
    ∃ oldest, (indexed.advance fragment.timestamp).1.IsOldest oldest ∧
      (indexed.insert key fragment).2.filter AssemblyEvent.isTimeout =
        (indexed.advance fragment.timestamp).2 ++
          [.timeout { oldest with status := .timedOut }] ∧
      ∀ other, other ≠ key → (indexed.insert key fragment).1.get? other =
        if other = oldest.key then none
        else (indexed.advance fragment.timestamp).1.get? other := by
  obtain ⟨hadvanced, hevents⟩ := h.advance hregular horder fragment.timestamp
  obtain ⟨hinserted, hreported⟩ := h.insert hregular horder key fragment
  have horder' := horder.advance fragment.timestamp
  have hdistinct := (horder.apply (.insert key fragment)).distinct
  rw [hadvanced.get?_eq horder'.distinct] at hnew
  rw [hadvanced.size_eq, h.config_eq] at hfull
  rw [hadvanced.size_eq] at hany
  obtain ⟨first, rest, hsequences⟩ := List.exists_cons_of_length_pos hany
  have hroom := Nat.not_lt.2 hfull
  refine ⟨first, hadvanced.isOldest_first horder' hsequences, ?_, ?_⟩
  · rw [hreported, hevents]
    exact Assembler.timeouts_insert_of_full hnew hroom hsequences
  · intro other hne
    rw [hinserted.get?_eq hdistinct, hadvanced.get?_eq horder'.distinct]
    exact Assembler.get?_insert_of_full hnew hroom hsequences horder.distinct hne

end Result

/-- After every run, a clock advance times out exactly what is idle for longer than the window, an
insertion without room times out the oldest sequence as well, and a flush times out everything. -/
theorem timeouts_after (config : AssemblyConfig) (operations : List (AssemblyOperation κ)) :
    let indexed := (ofConfig config).after operations
    (∀ time, (indexed.advance time).1.now = max indexed.now time ∧
      indexed.TimesOut
        (fun sequence => isExpired (max indexed.now time) sequence.lastFragmentAt config.window)
        Idle.Before (indexed.advance time)) ∧
    (∀ key fragment,
      let advanced := (indexed.advance fragment.timestamp).1
      advanced.get? key = none → config.maxSequences ≤ advanced.size → 0 < advanced.size →
      ∃ oldest, advanced.IsOldest oldest ∧
        (∀ other sequence, advanced.get? other = some sequence →
          oldest.deadline config.window ≤ sequence.deadline config.window) ∧
        (indexed.insert key fragment).2.filter AssemblyEvent.isTimeout =
          (indexed.advance fragment.timestamp).2 ++
            [.timeout { oldest with status := .timedOut }] ∧
        ∀ other, other ≠ key → (indexed.insert key fragment).1.get? other =
          if other = oldest.key then none else advanced.get? other) ∧
    indexed.flush.1.size = 0 ∧
      indexed.TimesOut (fun _ => true) (fun a b => a.serial < b.serial) indexed.flush := by
  intro indexed
  have h : indexed.Represents ((Assembler.ofConfig config).after operations) :=
    represents_after config operations
  have hregular := Assembler.regular_after config operations
  have horder := Assembler.inOrder_after config operations
  have hconfig : indexed.config = config := h.config_eq.trans (Assembler.config_after _ _)
  refine ⟨fun time => ⟨?_, ?_⟩, ?_, ?_, h.flush_timesOut horder⟩
  · rw [(h.advance hregular horder time).assembler.now_eq, h.now_eq]
    rfl
  · rw [← hconfig]
    exact h.advance_timesOut horder hregular time
  · intro key fragment advanced hnew hfull hany
    obtain ⟨oldest, holdest, hevents, hothers⟩ :=
      h.insert_evicts horder hregular hnew (hconfig.symm ▸ hfull) hany
    refine ⟨oldest, holdest, ?_, hevents, hothers⟩
    intro other sequence hopen
    rcases holdest.before other sequence hopen with rfl | hbefore
    · exact Nat.le_refl _
    · exact FragmentSequence.deadline_le hbefore.le _
  · exact (h.flush horder).assembler.size_eq

/-- One open sequence, and room for no other. -/
def single : List (AssemblyOperation Nat) := [.insert 1 (.ofLength 0 8 true .zero)]

theorem single_evicted :
    let advanced := (((ofConfig { maxSequences := 1 }).after single).advance .zero).1
    ∃ oldest, advanced.IsOldest oldest ∧
      (((ofConfig { maxSequences := 1 }).after single).insert 2
        (.ofLength 0 8 true .zero)).2.filter AssemblyEvent.isTimeout =
          [.timeout { oldest with status := .timedOut }] := by
  have hevicts := (timeouts_after { maxSequences := 1 } single).2.1 2 (.ofLength 0 8 true .zero)
    (by decide +kernel) (by decide +kernel) (by decide +kernel)
  obtain ⟨oldest, holdest, _, hevents, _⟩ := hevicts
  have hquiet : (((ofConfig { maxSequences := 1 }).after single).advance .zero).2 = [] := by
    decide +kernel
  rw [Fragment.ofLength, hquiet] at hevents
  exact ⟨oldest, holdest, hevents⟩

end IndexedAssembler

end Dissection
