import Dissection.Proofs.Reassembly.Isolation

/-!
# The books of an assembler

The open sequences are in idle order and have serial numbers of their own, smaller than the next
one. A key stands in the books once at most: it has an open sequence, or a recent end, or neither.
-/

namespace Dissection

namespace Assembler

variable {κ : Type}

/-- The keys with an open sequence, and then those with a recent end. -/
def keys (assembler : Assembler κ) : List κ :=
  assembler.sequences.map FragmentSequence.key ++ assembler.closings.map Closing.key

structure InOrder (assembler : Assembler κ) : Prop where
  ordered : assembler.sequences.Pairwise Idle.Before
  serials : assembler.sequences.Pairwise (fun a b => a.serial ≠ b.serial)
  serial_lt : ∀ sequence ∈ assembler.sequences, sequence.serial < assembler.opened
  nodup_keys : assembler.keys.Nodup

theorem inOrder_ofConfig (config : AssemblyConfig) : (ofConfig config : Assembler κ).InOrder where
  ordered := .nil
  serials := .nil
  serial_lt _ h := nomatch h
  nodup_keys := .nil

section InOrder

variable {assembler : Assembler κ} (h : assembler.InOrder)

include h

theorem InOrder.distinct : assembler.DistinctKeys :=
  List.pairwise_map.1 (List.nodup_append.1 h.nodup_keys).1

theorem InOrder.ne_of_closed {sequence : FragmentSequence κ}
    (hsequence : sequence ∈ assembler.sequences) {closing : Closing κ}
    (hclosing : closing ∈ assembler.closings) : closing.key ≠ sequence.key :=
  ((List.nodup_append.1 h.nodup_keys).2.2 _ (List.mem_map_of_mem hsequence) _
    (List.mem_map_of_mem hclosing)).symm

theorem InOrder.eq_of_serial {a b : FragmentSequence κ} (ha : a ∈ assembler.sequences)
    (hb : b ∈ assembler.sequences) (hserial : a.serial = b.serial) : a = b :=
  List.inj_on_of_nodup_map (List.pairwise_map.2 h.serials) ha hb hserial

/-- Some sequences time out and the others stay. -/
theorem InOrder.timeOut {ended kept : List (FragmentSequence κ)}
    (hsplit : (ended ++ kept).Perm assembler.sequences) (hkept : kept.Sublist assembler.sequences) :
    (assembler.timeOut ended kept).1.InOrder where
  ordered := h.ordered.sublist hkept
  serials := h.serials.sublist hkept
  serial_lt sequence hsequence := h.serial_lt sequence (hkept.mem hsequence)
  nodup_keys := by
    have hends : (ended.map (fun sequence => Closing.mk assembler.now sequence.key)).map
        Closing.key = ended.map FragmentSequence.key := by simp
    have hall : (kept.map FragmentSequence.key ++
        (assembler.closings.map Closing.key ++ ended.map FragmentSequence.key)).Perm
          assembler.keys := by
      refine List.perm_append_comm_assoc _ _ _ |>.trans ?_
      refine List.perm_append_comm.trans (.append_right _ ?_)
      rw [← List.map_append]
      exact (List.perm_append_comm.trans hsplit).map _
    simpa [keys, Assembler.timeOut, close, hends] using hall.nodup_iff.2 h.nodup_keys

theorem InOrder.forgetting {closings : List (Closing κ)}
    (hclosings : closings.Sublist assembler.closings) (clock : Clock) (stats : AssemblyStats) :
    InOrder { assembler with clock := clock, closings := closings, stats := stats } where
  ordered := h.ordered
  serials := h.serials
  serial_lt := h.serial_lt
  nodup_keys := h.nodup_keys.sublist (List.Sublist.append_left (hclosings.map _) _)

theorem InOrder.advance (time : Timestamp) : (assembler.advance time).1.InOrder :=
  (h.forgetting (List.dropWhile_sublist _) _ assembler.stats).timeOut
    (.of_eq (Idle.overdue_append_current _ _ _)) (List.dropWhile_sublist _)

theorem InOrder.flush [DecidableEq κ] : assembler.flush.1.InOrder := by
  refine h.timeOut ?_ (List.nil_sublist _)
  rw [List.append_nil]
  exact perm_inOpeningOrder assembler.sequences

theorem InOrder.makeRoom : assembler.makeRoom.1.InOrder := by
  rcases assembler.makeRoom_cases with ⟨_, heq⟩ | ⟨_, first, rest, hsequences, heq⟩
  · rw [heq]
    exact h
  · have hcounted := h.forgetting (.refl _) assembler.clock
      { assembler.stats with evicted := assembler.stats.evicted + 1 }
    rw [heq]
    refine hcounted.timeOut (.of_eq hsequences.symm) ?_
    change rest.Sublist assembler.sequences
    rw [hsequences]
    exact List.sublist_cons_self first rest

/-- A sequence is opened for a key that does not stand in the books. -/
theorem InOrder.opening {sequence : FragmentSequence κ} (hkey : sequence.key ∉ assembler.keys)
    (hserial : sequence.serial = assembler.opened) (stats : AssemblyStats) :
    InOrder { assembler with
      sequences := Idle.place sequence assembler.sequences
      opened := assembler.opened + 1
      stats := stats } where
  ordered := Idle.pairwise_place h.ordered (fun other hother =>
    Nat.ne_of_lt (Nat.lt_of_lt_of_eq (h.serial_lt other hother) hserial.symm))
  serials := by
    refine (Idle.perm_place _ _).pairwise_iff (fun hne => hne.symm) |>.2 ?_
    refine List.pairwise_cons.2 ⟨fun other hother => ?_, h.serials⟩
    exact Nat.ne_of_gt (hserial ▸ h.serial_lt other hother)
  serial_lt other hother := by
    rcases Idle.mem_place.1 hother with rfl | hmem
    · exact hserial ▸ Nat.lt_succ_self _
    · exact Nat.lt_succ_of_lt (h.serial_lt other hmem)
  nodup_keys := by
    have hplaced := (Idle.perm_place sequence assembler.sequences).map FragmentSequence.key
    refine (hplaced.append_right _).nodup_iff.2 ?_
    exact List.nodup_cons.2 ⟨hkey, h.nodup_keys⟩

end InOrder

theorem pairwise_placeBySerial {sequence : FragmentSequence κ} {queue : List (FragmentSequence κ)}
    (h : queue.Pairwise (fun a b => a.serial < b.serial))
    (hnew : ∀ other ∈ queue, other.serial ≠ sequence.serial) :
    (placeBySerial sequence queue).Pairwise (fun a b => a.serial < b.serial) := by
  induction queue with
  | nil => exact List.pairwise_singleton _ _
  | cons other rest ih =>
    obtain ⟨hother, hrest⟩ := List.pairwise_cons.1 h
    obtain ⟨hfirst, hlater⟩ := List.forall_mem_cons.1 hnew
    by_cases hlt : sequence.serial < other.serial
    · rw [placeBySerial, if_pos hlt]
      refine List.pairwise_cons.2 ⟨?_, h⟩
      exact List.forall_mem_cons.2 ⟨hlt, fun later hmem => Nat.lt_trans hlt (hother later hmem)⟩
    · rw [placeBySerial, if_neg hlt]
      refine List.pairwise_cons.2 ⟨?_, ih hrest hlater⟩
      intro later hmem
      rcases List.mem_cons.1 ((perm_placeBySerial sequence rest).subset hmem) with rfl | hmem
      · exact Nat.lt_of_le_of_ne (Nat.le_of_not_lt hlt) hfirst
      · exact hother later hmem

theorem pairwise_inOpeningOrder {sequences : List (FragmentSequence κ)}
    (h : sequences.Pairwise (fun a b => a.serial ≠ b.serial)) :
    (inOpeningOrder sequences).Pairwise (fun a b => a.serial < b.serial) := by
  induction sequences with
  | nil => exact .nil
  | cons first rest ih =>
    obtain ⟨hfirst, hrest⟩ := List.pairwise_cons.1 h
    refine pairwise_placeBySerial (ih hrest) ?_
    intro other hother
    exact (hfirst other ((perm_inOpeningOrder rest).subset hother)).symm

/-- The order in which sequences stand does not matter to the order of their opening. -/
theorem inOpeningOrder_of_perm {sequences others : List (FragmentSequence κ)}
    (hperm : sequences.Perm others) (h : others.Pairwise (fun a b => a.serial ≠ b.serial)) :
    inOpeningOrder sequences = inOpeningOrder others := by
  have hsame : (inOpeningOrder sequences).Perm (inOpeningOrder others) :=
    (perm_inOpeningOrder sequences).trans (hperm.trans (perm_inOpeningOrder others).symm)
  refine hsame.eq_of_pairwise (fun _ _ _ _ hab hba => absurd hab (Nat.lt_asymm hba)) ?_
    (pairwise_inOpeningOrder h)
  exact pairwise_inOpeningOrder (hperm.pairwise_iff (fun hne => hne.symm) |>.2 h)

theorem makeRoom_of_room {assembler : Assembler κ}
    (h : assembler.size < assembler.config.maxSequences ∨ assembler.sequences = []) :
    assembler.makeRoom = (assembler, []) := by
  rcases assembler.makeRoom_cases with ⟨_, heq⟩ | ⟨hfull, first, rest, hsequences, _⟩
  · exact heq
  · simp [hfull, hsequences] at h

theorem makeRoom_of_full {assembler : Assembler κ} {first : FragmentSequence κ}
    {rest : List (FragmentSequence κ)} (hfull : ¬ assembler.size < assembler.config.maxSequences)
    (hsequences : assembler.sequences = first :: rest) :
    assembler.makeRoom =
      ({ assembler with
        stats := { assembler.stats with
          evicted := assembler.stats.evicted + 1 } } : Assembler κ).timeOut [first] rest := by
  rw [Assembler.makeRoom, if_neg hfull, hsequences]

variable [DecidableEq κ]

/-- The assembler before it opens a sequence for a key, whose recent end is forgotten. -/
def reopened (assembler : Assembler κ) (key : κ) : Assembler κ :=
  let late := if assembler.isRecentlyClosed key then 1 else 0
  { assembler with
    closings := assembler.closings.filter (fun closing => closing.key ≠ key)
    stats := { assembler.stats with
      lateFragments := assembler.stats.lateFragments + late } }

theorem isRecentlyClosed_makeRoom {assembler : Assembler κ} {key : κ}
    (hclosed : assembler.get? key = none) :
    assembler.makeRoom.1.isRecentlyClosed key = assembler.isRecentlyClosed key := by
  rcases assembler.makeRoom_cases with ⟨_, heq⟩ | ⟨_, first, rest, hsequences, heq⟩
  · rw [heq]
  · have hfirst : first.key ≠ key :=
      get?_eq_none_iff.1 hclosed first (hsequences ▸ List.mem_cons_self)
    rw [heq]
    simp [isRecentlyClosed, Assembler.timeOut, close, hfirst]

/-- Room for another sequence may be made before the end of its key is forgotten, or after. -/
theorem makeRoom_reopened {assembler : Assembler κ} {key : κ}
    (hclosed : assembler.get? key = none) :
    (assembler.reopened key).makeRoom =
      (assembler.makeRoom.1.reopened key, assembler.makeRoom.2) := by
  rcases assembler.makeRoom_cases with ⟨hroom, heq⟩ | ⟨hfull, first, rest, hsequences, heq⟩
  · rw [heq]
    exact makeRoom_of_room hroom
  · have hfirst : first.key ≠ key :=
      get?_eq_none_iff.1 hclosed first (hsequences ▸ List.mem_cons_self)
    have hreopened : (assembler.reopened key).makeRoom = _ := makeRoom_of_full hfull hsequences
    rw [heq, hreopened]
    simp [reopened, isRecentlyClosed, Assembler.timeOut, close, hfirst, now]

theorem openSequence_eq {assembler : Assembler κ} {key : κ} (hclosed : assembler.get? key = none)
    (time : Timestamp) :
    let roomy := (assembler.reopened key).makeRoom
    assembler.openSequence key time =
      ({ roomy.1 with
          sequences := Idle.place (.start key time roomy.1.opened) roomy.1.sequences
          opened := roomy.1.opened + 1
          stats := { roomy.1.stats with
            sequencesStarted := roomy.1.stats.sequencesStarted + 1 } },
        roomy.2 ++ [.sequenceStart key time]) := by
  simp only [makeRoom_reopened hclosed]
  simp [openSequence, reopened, isRecentlyClosed_makeRoom hclosed]

theorem not_mem_keys_reopened {assembler : Assembler κ} {key : κ}
    (hclosed : assembler.get? key = none) :
    key ∉ (assembler.reopened key).makeRoom.1.keys := by
  have hopen : ∀ sequence ∈ assembler.makeRoom.1.sequences, sequence.key ≠ key :=
    fun sequence hsequence =>
      get?_eq_none_iff.1 hclosed sequence (assembler.sequences_makeRoom_sublist.mem hsequence)
  rw [makeRoom_reopened hclosed]
  simpa [keys, reopened] using hopen

theorem InOrder.ensureOpen {assembler : Assembler κ} (h : assembler.InOrder) (key : κ)
    (time : Timestamp) : (assembler.ensureOpen key time).1.InOrder := by
  cases hopen : assembler.get? key with
  | some sequence =>
    rw [ensureOpen_of_open hopen]
    exact h
  | none =>
    have hreopened : (assembler.reopened key).InOrder :=
      h.forgetting List.filter_sublist assembler.clock _
    rw [ensureOpen_of_closed hopen, openSequence_eq hopen]
    exact hreopened.makeRoom.opening (not_mem_keys_reopened hopen) rfl _

theorem perm_others {assembler : Assembler κ} (h : assembler.DistinctKeys)
    {sequence : FragmentSequence κ} (hsequence : sequence ∈ assembler.sequences) :
    (sequence :: assembler.others sequence.key).Perm assembler.sequences := by
  have hsingle := filter_eq_singleton h hsequence
  have hparts := List.filter_append_perm (fun other => other.key = sequence.key) assembler.sequences
  rw [hsingle] at hparts
  simpa [others] using hparts

theorem others_first {assembler : Assembler κ} (h : assembler.DistinctKeys)
    {first : FragmentSequence κ} {rest : List (FragmentSequence κ)}
    (hsequences : assembler.sequences = first :: rest) : assembler.others first.key = rest := by
  rw [DistinctKeys, hsequences] at h
  rw [others, hsequences, List.filter_cons_of_neg (by simp), List.filter_eq_self]
  intro other hother
  simpa using ((List.pairwise_cons.1 h).1 other hother).symm

/-- The sequence of a key gives way to one of the same key and serial number. -/
theorem InOrder.replace {assembler : Assembler κ} (h : assembler.InOrder)
    {sequence : FragmentSequence κ} (hsequence : sequence ∈ assembler.sequences)
    (grown : FragmentSequence κ) (hkey : grown.key = sequence.key)
    (hserial : grown.serial = sequence.serial) :
    InOrder { assembler with
      sequences := Idle.place grown (assembler.others grown.key) } := by
  rw [hkey]
  have hkept : (assembler.others sequence.key).Sublist assembler.sequences := List.filter_sublist
  have hother : ∀ other ∈ assembler.others sequence.key, other.serial ≠ grown.serial := by
    intro other hmem heq
    have hsame := h.eq_of_serial (mem_others.1 hmem).1 hsequence (heq.trans hserial)
    exact (mem_others.1 hmem).2 (congrArg FragmentSequence.key hsame)
  have hplaced := Idle.perm_place grown (assembler.others sequence.key)
  constructor
  · exact Idle.pairwise_place (h.ordered.sublist hkept) hother
  · refine hplaced.pairwise_iff (fun hne => hne.symm) |>.2 ?_
    exact List.pairwise_cons.2 ⟨fun other hmem => (hother other hmem).symm,
      h.serials.sublist hkept⟩
  · intro other hmem
    rcases Idle.mem_place.1 hmem with rfl | hmem
    · exact hserial ▸ h.serial_lt sequence hsequence
    · exact h.serial_lt other (hkept.mem hmem)
  · have hkeys := hplaced.map FragmentSequence.key
    rw [List.map_cons, hkey, ← List.map_cons] at hkeys
    have hall := hkeys.trans ((perm_others h.distinct hsequence).map FragmentSequence.key)
    exact (hall.append_right _).nodup_iff.2 h.nodup_keys

/-- A sequence that has grown stays open in its place, or ends. -/
theorem InOrder.settle {assembler : Assembler κ} (h : assembler.InOrder)
    {sequence grown : FragmentSequence κ} (hsequence : sequence ∈ assembler.sequences)
    (hkey : grown.key = sequence.key) (hserial : grown.serial = sequence.serial) :
    (assembler.settle grown).1.InOrder := by
  unfold Assembler.settle
  split
  · have hsplit : ([sequence] ++ assembler.others sequence.key).Perm assembler.sequences :=
      perm_others h.distinct hsequence
    have hended := (h.timeOut hsplit List.filter_sublist).forgetting (.refl _) assembler.clock
      { assembler.stats with completed := assembler.stats.completed + 1 }
    simpa [Assembler.timeOut, close, hkey, others, now] using hended
  · exact h.replace hsequence grown hkey hserial

theorem InOrder.addFragment {assembler : Assembler κ} (h : assembler.InOrder) {key : κ}
    {sequence : FragmentSequence κ} (hopen : assembler.get? key = some sequence)
    (fragment : Fragment) : (assembler.addFragment key fragment).1.InOrder := by
  have hsequence := (get?_mem hopen).1
  cases hretains : sequence.retains fragment with
  | true =>
    simp only [Assembler.addFragment, hopen, FragmentSequence.place_of_retains hretains]
    exact h.forgetting (.refl _) assembler.clock _
  | false =>
    simp only [Assembler.addFragment, hopen, FragmentSequence.place_of_not_retains hretains]
    exact (h.forgetting (.refl _) assembler.clock _).settle hsequence rfl rfl

theorem InOrder.ready {assembler : Assembler κ} (h : assembler.InOrder) (key : κ)
    (time : Timestamp) : (assembler.ready key time).InOrder :=
  (h.advance time).ensureOpen key time

theorem InOrder.apply {assembler : Assembler κ} (h : assembler.InOrder)
    (operation : AssemblyOperation κ) : (assembler.apply operation).1.InOrder := by
  cases operation with
  | insert key fragment =>
    exact (h.ready key fragment.timestamp).addFragment
      (assembler.get?_ready key fragment.timestamp) _
  | advance time => exact h.advance time
  | flush => exact h.flush

theorem inOrder_after (config : AssemblyConfig) (operations : List (AssemblyOperation κ)) :
    ((ofConfig config : Assembler κ).after operations).InOrder :=
  run_induction (motive := fun current _ => current.InOrder) (ofConfig config)
    (inOrder_ofConfig config) (fun _ _ operation h => h.apply operation) operations

end Assembler

end Dissection
