import Dissection.Proofs.Reassembly.Indexed.Representation

/-!
# Operations on an indexed assembler

Whatever an indexed assembler is asked to do, it returns the events that the plain assembler it
stands for returns, and goes on to stand for what that becomes. Where the plain one sees all of its
open sequences at once, the indexed one takes them one by one from the front of the index, and
looks each of them up by its key.
-/

namespace Dissection

variable {κ : Type}

namespace Assembler

theorem timeOut_cons (assembler : Assembler κ) (first : FragmentSequence κ)
    (ended rest kept : List (FragmentSequence κ)) :
    assembler.timeOut (first :: ended) kept =
      (((assembler.timeOut [first] rest).1.timeOut ended kept).1,
        (assembler.timeOut [first] rest).2 ++
          ((assembler.timeOut [first] rest).1.timeOut ended kept).2) := by
  simp [timeOut, close, now, Nat.add_assoc, Nat.add_comm 1]

theorem timeOut_nil {assembler : Assembler κ} {kept : List (FragmentSequence κ)}
    (h : kept = assembler.sequences) : assembler.timeOut [] kept = (assembler, []) := by
  simp [timeOut, close, h]

/-- A sequence that is in its place need not move to stay. -/
theorem InOrder.settle_of_mem [DecidableEq κ] {assembler : Assembler κ} (h : assembler.InOrder)
    {sequence : FragmentSequence κ} (hsequence : sequence ∈ assembler.sequences)
    (hcovered : ¬ sequence.IsCovered) : assembler.settle sequence = (assembler, []) := by
  have hsame : Idle.place sequence (assembler.others sequence.key) = assembler.sequences :=
    Idle.eq_of_perm (h.replace hsequence sequence rfl rfl).ordered h.ordered
      ((Idle.perm_place _ _).trans (perm_others h.distinct hsequence))
  rw [others] at hsame
  simp only [Assembler.settle, if_neg hcovered, hsame]

/-- A sequence may be put into its place before it settles. -/
theorem settle_replaced [DecidableEq κ] (assembler : Assembler κ) (sequence : FragmentSequence κ) :
    ({ assembler with
      sequences := Idle.place sequence (assembler.others sequence.key) } : Assembler κ).settle
        sequence = assembler.settle sequence := by
  have hothers : (Idle.place sequence (assembler.others sequence.key)).filter
      (fun other => other.key ≠ sequence.key) = assembler.others sequence.key := by
    rw [Idle.filter_place (by simp), others, List.filter_filter]
    simp
  simp only [settle, hothers]
  rfl

end Assembler

namespace IndexedAssembler

open Assembler (InOrder mem_others)

variable [DecidableEq κ]

variable {indexed : IndexedAssembler κ} {assembler : Assembler κ}

/-- The indexed assembler and the plain one return the same events, and what becomes of the indexed
one stands for what becomes of the plain one. -/
structure RepresentsResult (indexed : IndexedAssembler κ × List (AssemblyEvent κ))
    (plain : Assembler κ × List (AssemblyEvent κ)) : Prop where
  assembler : indexed.1.Represents plain.1
  events : indexed.2 = plain.2

theorem Represents.counting (h : indexed.Represents assembler) {counted stats : AssemblyStats}
    (hstats : counted = stats) :
    Represents { indexed with stats := counted } { assembler with stats := stats } :=
  ⟨h.holding h.sequences_perm hstats, h.index_eq⟩

/-- The end of a sequence is noted in both, when its key has no other end. -/
theorem Agrees.markClosed (h : indexed.Agrees assembler) {key : κ}
    (hnew : ∀ closing ∈ assembler.closings, closing.key ≠ key) :
    (indexed.markClosed key).Agrees
      { assembler with closings := assembler.closings ++ [⟨assembler.now, key⟩] } where
  config_eq := h.config_eq
  clock_eq := h.clock_eq
  opened_eq := h.opened_eq
  stats_eq := h.stats_eq
  sequences_perm := h.sequences_perm
  closed_iff other time := by
    have hother : ⟨time, key⟩ ∉ assembler.closings := fun hmem => hnew _ hmem rfl
    by_cases hkey : other = key
    · subst hkey
      simp [IndexedAssembler.markClosed, hother, h.now_eq, eq_comm]
    · simp [IndexedAssembler.markClosed, hkey, h.closed_iff]
  queued closing hclosing := by
    rw [IndexedAssembler.markClosed, h.now_eq]
    rcases List.mem_append.1 hclosing with hmem | hmem
    · exact List.mem_append_left _ (h.queued closing hmem)
    · exact List.mem_append_right _ hmem
  queue_sorted := by
    refine List.pairwise_append.2 ⟨h.queue_sorted, List.pairwise_singleton _ _, ?_⟩
    intro earlier hearlier closing hclosing
    rw [List.mem_singleton.1 hclosing]
    exact h.queue_le earlier hearlier
  queue_le closing hclosing := by
    rcases List.mem_append.1 hclosing with hmem | hmem
    · exact h.queue_le closing hmem
    · rw [List.mem_singleton.1 hmem]
      exact Nat.le_refl _

/-- The open sequence of a key times out in both. -/
theorem Agrees.timeOut (h : indexed.Agrees assembler) (horder : assembler.InOrder)
    {sequence : FragmentSequence κ} (hsequence : sequence ∈ assembler.sequences) :
    (indexed.timeOut sequence.key).1.Agrees
        (assembler.timeOut [sequence] (assembler.others sequence.key)).1 ∧
      (indexed.timeOut sequence.key).1.idleOrder =
        SequenceSlot.unfile sequence indexed.idleOrder ∧
      (indexed.timeOut sequence.key).2 =
        some (.timeout { sequence with status := .timedOut }) := by
  have hopen : indexed.get? sequence.key = some sequence :=
    h.get?_eq_some_iff.2 ⟨hsequence, rfl⟩
  have hstats : { indexed.stats with timedOut := indexed.stats.timedOut + 1 } =
      { assembler.stats with timedOut := assembler.stats.timedOut + 1 } := by rw [h.stats_eq]
  rw [IndexedAssembler.timeOut, hopen]
  exact ⟨(h.holding (h.perm_erase sequence.key) hstats).markClosed
    (fun _ => horder.ne_of_closed hsequence), rfl, rfl⟩

theorem Represents.timeOut (h : indexed.Represents assembler) (horder : assembler.InOrder)
    {sequence : FragmentSequence κ} (hsequence : sequence ∈ assembler.sequences) :
    RepresentsResult
      ((indexed.timeOut sequence.key).1, (indexed.timeOut sequence.key).2.toList)
      (assembler.timeOut [sequence] (assembler.others sequence.key)) := by
  obtain ⟨hagrees, hindex, hevent⟩ := h.toAgrees.timeOut horder hsequence
  constructor
  · refine ⟨hagrees, hindex.trans ?_⟩
    rw [h.index_eq]
    exact horder.unfile_slots hsequence
  · rw [hevent]
    rfl

/-- Sequences time out one by one in the indexed assembler, and all together in the plain one. -/
theorem Represents.timeOutAll {ended kept : List (FragmentSequence κ)}
    (h : indexed.Represents assembler) (horder : assembler.InOrder)
    (hsplit : (ended ++ kept).Perm assembler.sequences) (hkept : kept.Sublist assembler.sequences) :
    RepresentsResult
      (IndexedAssembler.timeOutAll (ended.map FragmentSequence.key) indexed)
      (assembler.timeOut ended kept) := by
  induction ended generalizing indexed assembler with
  | nil =>
    rw [Assembler.timeOut_nil (hkept.eq_of_length hsplit.length_eq)]
    exact ⟨h, rfl⟩
  | cons first ended ih =>
    have hfirst : first ∈ assembler.sequences := hsplit.subset List.mem_cons_self
    have hothers := Assembler.perm_others horder.distinct hfirst
    have hrest : (ended ++ kept).Perm (assembler.others first.key) :=
      (hsplit.trans hothers.symm).cons_inv
    have hkept' : kept.Sublist (assembler.others first.key) := by
      have hfilter := hkept.filter (fun other => other.key ≠ first.key)
      rwa [List.filter_eq_self.2] at hfilter
      intro other hother
      simpa using (mem_others.1 (hrest.subset (List.mem_append_right _ hother))).2
    have hswept := h.timeOut horder hfirst
    have hflushed := ih hswept.assembler (horder.timeOut hothers List.filter_sublist) hrest hkept'
    rw [Assembler.timeOut_cons assembler first ended (assembler.others first.key)]
    exact ⟨hflushed.assembler, congrArg₂ _ hswept.events hflushed.events⟩

theorem expire_of_nil (h : indexed.idleOrder = []) : indexed.expire = (indexed, []) := by
  rw [IndexedAssembler.expire]
  split
  · rfl
  · next hslots => simp [h] at hslots

theorem expire_of_current {oldest : SequenceSlot κ} {later : List (SequenceSlot κ)}
    (h : indexed.idleOrder = oldest :: later)
    (hcurrent : Idle.isOverdue indexed.now indexed.config.window oldest = false) :
    indexed.expire = (indexed, []) := by
  rw [IndexedAssembler.expire]
  split
  · rfl
  · next hslots =>
    obtain ⟨rfl, rfl⟩ := List.cons.inj (h.symm.trans hslots)
    simp [hcurrent]

theorem expire_of_overdue {oldest : SequenceSlot κ} {later : List (SequenceSlot κ)}
    (h : indexed.idleOrder = oldest :: later)
    (hoverdue : Idle.isOverdue indexed.now indexed.config.window oldest = true) :
    let swept := { indexed with idleOrder := later }.timeOut oldest.key
    indexed.expire = (swept.1.expire.1, swept.2.toList ++ swept.1.expire.2) := by
  intro swept
  rw [IndexedAssembler.expire]
  split
  · next hslots => simp [h] at hslots
  · next hslots =>
    obtain ⟨rfl, rfl⟩ := List.cons.inj (h.symm.trans hslots)
    rw [if_pos hoverdue]

/-- A sweep of the index from the front takes what is overdue. -/
theorem Represents.expire (h : indexed.Represents assembler) (horder : assembler.InOrder) :
    RepresentsResult indexed.expire (assembler.timeOut
      (Idle.overdue assembler.now assembler.config.window assembler.sequences)
      (Idle.current assembler.now assembler.config.window assembler.sequences)) := by
  induction hqueue : assembler.sequences generalizing indexed assembler with
  | nil =>
    have hempty : indexed.idleOrder = [] := by rw [h.index_eq, hqueue, List.map_nil]
    rw [expire_of_nil hempty, Idle.overdue, Idle.current, List.takeWhile_nil, List.dropWhile_nil,
      Assembler.timeOut_nil hqueue.symm]
    exact ⟨h, rfl⟩
  | cons first rest ih =>
    have hslots : indexed.idleOrder = first.slot :: rest.map FragmentSequence.slot := by
      rw [h.index_eq, hqueue, List.map_cons]
    have hsame : Idle.isOverdue indexed.now indexed.config.window first.slot =
        Idle.isOverdue assembler.now assembler.config.window first := by
      rw [h.now_eq, h.config_eq]
      rfl
    cases hoverdue : Idle.isOverdue assembler.now assembler.config.window first with
    | false =>
      have hcurrent := Bool.eq_false_iff.1 hoverdue
      rw [expire_of_current hslots (hsame.trans hoverdue), Idle.overdue, Idle.current,
        List.takeWhile_cons_of_neg hcurrent, List.dropWhile_cons_of_neg hcurrent,
        Assembler.timeOut_nil hqueue.symm]
      exact ⟨h, rfl⟩
    | true =>
      have hfirst : first ∈ assembler.sequences := hqueue ▸ List.mem_cons_self
      have hothers := Assembler.others_first horder.distinct hqueue
      have hlater : ∀ other ∈ rest, other.serial ≠ first.serial := by
        have hserials := horder.serials
        rw [hqueue] at hserials
        exact fun other hother => ((List.pairwise_cons.1 hserials).1 other hother).symm
      -- the front slot is taken out of the index before the sequence times out
      have hpopped :
          Agrees { indexed with idleOrder := rest.map FragmentSequence.slot } assembler :=
        h.holding h.sequences_perm h.stats_eq
      obtain ⟨hagrees, hindex, hevent⟩ := hpopped.timeOut horder hfirst
      rw [hothers] at hagrees
      have hswept := Represents.mk hagrees (hindex.trans (SequenceSlot.unfile_eq_self hlater))
      have hnext : (assembler.timeOut [first] rest).1.InOrder :=
        horder.timeOut (.of_eq hqueue.symm) (hqueue ▸ List.sublist_cons_self first rest)
      have hflushed := ih hswept hnext rfl
      rw [expire_of_overdue hslots (hsame.trans hoverdue), Idle.overdue, Idle.current,
        List.takeWhile_cons_of_pos hoverdue, List.dropWhile_cons_of_pos hoverdue,
        Assembler.timeOut_cons assembler first _ rest]
      exact ⟨hflushed.assembler, congrArg₂ _ (congrArg Option.toList hevent) hflushed.events⟩

theorem find?_forgetEnd {closed : KeyTable κ Timestamp} {closing : Closing κ} {key : κ}
    {time : Timestamp} :
    (forgetEnd closed closing).find? key = some time ↔
      closed.find? key = some time ∧ ⟨time, key⟩ ≠ closing := by
  obtain ⟨last, other⟩ := closing
  by_cases hlast : closed.find? other = some last
  · rw [forgetEnd, if_pos hlast, KeyTable.find?_erase]
    by_cases hkey : key = other
    · simp [hkey, hlast, eq_comm]
    · simp [hkey]
  · rw [forgetEnd, if_neg hlast]
    refine (and_iff_left_of_imp ?_).symm
    rintro hfound ⟨rfl, rfl⟩
    exact hlast hfound

theorem forget_queue (now : Timestamp) (window : Duration) (queue : List (Closing κ))
    (closed : KeyTable κ Timestamp) :
    (forget now window queue closed).1 =
      queue.dropWhile (fun closing => isExpired now closing.time window) := by
  induction queue generalizing closed with
  | nil => rfl
  | cons closing later ih =>
    by_cases h : isExpired now closing.time window = true
    · simp [forget, h, ih]
    · simp [forget, h]

/-- A last end is forgotten exactly when it is longer ago than the window. -/
theorem find?_forget {now : Timestamp} {window : Duration} {queue : List (Closing κ)}
    {closed : KeyTable κ Timestamp} (hsorted : queue.Pairwise (fun a b => a.time ≤ b.time))
    (hqueued : ∀ key time, closed.find? key = some time → ⟨time, key⟩ ∈ queue) {key : κ}
    {time : Timestamp} :
    (forget now window queue closed).2.find? key = some time ↔
      closed.find? key = some time ∧ isExpired now time window = false := by
  induction queue generalizing closed with
  | nil => exact (and_iff_left_of_imp (fun h => nomatch hqueued key time h)).symm
  | cons closing later ih =>
    obtain ⟨hfirst, hlater⟩ := List.pairwise_cons.1 hsorted
    by_cases hexpired : isExpired now closing.time window = true
    · have hrest : ∀ key time, (forgetEnd closed closing).find? key = some time →
          ⟨time, key⟩ ∈ later := by
        intro key time hfound
        obtain ⟨hfound, hne⟩ := find?_forgetEnd.1 hfound
        exact List.mem_of_ne_of_mem hne (hqueued key time hfound)
      rw [forget, if_pos hexpired, ih hlater hrest, find?_forgetEnd, and_assoc]
      refine and_congr_right (fun _ => and_iff_right_of_imp ?_)
      rintro hcurrent rfl
      exact absurd hexpired (Bool.eq_false_iff.1 hcurrent)
    · rw [forget, if_neg hexpired]
      refine (and_iff_left_of_imp ?_).symm
      intro hfound
      have hle : closing.time ≤ time := by
        rcases List.mem_cons.1 (hqueued key time hfound) with rfl | hmem
        · exact Nat.le_refl _
        · exact hfirst _ hmem
      exact Bool.eq_false_iff.2 (fun h => hexpired (isExpired_of_le hle h))

/-- The clock is moved in both, and the same ends are forgotten. -/
theorem Represents.observing (h : indexed.Represents assembler) (hregular : assembler.Regular)
    (time : Timestamp) :
    let now := max indexed.now time
    let forgotten := forget now indexed.config.window indexed.closedOrder indexed.recentlyClosed
    Represents
      { indexed with
        clock := indexed.clock.observe time
        closedOrder := forgotten.1
        recentlyClosed := forgotten.2 }
      { assembler with
        clock := assembler.clock.observe time
        closings := assembler.closings.dropWhile (fun closing =>
          isExpired (max assembler.now time) closing.time assembler.config.window) } := by
  intro now forgotten
  have hnow : max assembler.now time = now := by rw [← h.now_eq]
  have hremembered : assembler.closings.dropWhile (fun closing =>
      isExpired (max assembler.now time) closing.time assembler.config.window) =
        assembler.closings.filter (fun closing =>
          !isExpired now closing.time indexed.config.window) := by
    rw [hnow, h.config_eq, dropWhile_isExpired hregular.closings_sorted]
  have hqueue : forgotten.1 = indexed.closedOrder.filter (fun closing =>
      !isExpired now closing.time indexed.config.window) := by
    rw [← dropWhile_isExpired h.queue_sorted]
    exact forget_queue _ _ _ _
  have hfound : ∀ key time, indexed.recentlyClosed.find? key = some time →
      ⟨time, key⟩ ∈ indexed.closedOrder :=
    fun key time hlast => h.queued _ ((h.closed_iff key time).1 hlast)
  rw [hremembered, hqueue]
  constructor
  · constructor
    · exact h.config_eq
    · exact congrArg (Clock.observe · time) h.clock_eq
    · exact h.opened_eq
    · exact h.stats_eq
    · exact h.sequences_perm
    · intro key ended
      rw [find?_forget h.queue_sorted hfound]
      simp [h.closed_iff, now]
    · intro closing hclosing
      rw [List.mem_filter] at hclosing ⊢
      exact ⟨h.queued closing hclosing.1, hclosing.2⟩
    · exact h.queue_sorted.filter _
    · intro closing hclosing
      exact Nat.le_trans (h.queue_le closing (List.mem_filter.1 hclosing).1)
        (Timestamp.le_max_left _ _)
  · exact h.index_eq

theorem Represents.advance (h : indexed.Represents assembler) (hregular : assembler.Regular)
    (horder : assembler.InOrder) (time : Timestamp) :
    RepresentsResult (indexed.advance time) (assembler.advance time) := by
  have hobserved := horder.forgetting
    (List.dropWhile_sublist (fun closing =>
      isExpired (max assembler.now time) closing.time assembler.config.window))
    (assembler.clock.observe time) assembler.stats
  exact (h.observing hregular time).expire hobserved

theorem Represents.flush (h : indexed.Represents assembler) (horder : assembler.InOrder) :
    RepresentsResult indexed.flush assembler.flush := by
  have hsplit : (Assembler.inOpeningOrder assembler.sequences ++ []).Perm assembler.sequences := by
    rw [List.append_nil]
    exact Assembler.perm_inOpeningOrder assembler.sequences
  rw [IndexedAssembler.flush, Assembler.inOpeningOrder_of_perm h.values_perm horder.serials]
  exact h.timeOutAll horder hsplit (List.nil_sublist _)

theorem evictOldest_of_cons {oldest : SequenceSlot κ} {later : List (SequenceSlot κ)}
    (h : indexed.idleOrder = oldest :: later) :
    indexed.evictOldest =
      { indexed with stats := { indexed.stats with evicted := indexed.stats.evicted + 1 } }.timeOut
        oldest.key := by
  rw [evictOldest]
  split
  · next hslots => simp [h] at hslots
  · next hslots =>
    obtain ⟨rfl, rfl⟩ := List.cons.inj (h.symm.trans hslots)
    rfl

theorem Represents.makeRoom (h : indexed.Represents assembler) (horder : assembler.InOrder) :
    RepresentsResult (indexed.makeRoom.1, indexed.makeRoom.2.toList) assembler.makeRoom := by
  have hsize : indexed.config.maxSequences ≤ indexed.size ↔
      ¬ assembler.size < assembler.config.maxSequences := by
    rw [h.size_eq, h.config_eq, Nat.not_lt]
  rcases assembler.makeRoom_cases with ⟨hroom, heq⟩ | ⟨hfull, first, rest, hsequences, heq⟩
  · have hindexed : indexed.makeRoom = (indexed, none) := by
      rcases hroom with hroom | hempty
      · simp [IndexedAssembler.makeRoom, hsize, hroom]
      · simp [IndexedAssembler.makeRoom, evictOldest, h.index_eq, hempty]
    rw [heq, hindexed]
    exact ⟨h, rfl⟩
  · have hfirst : first ∈ assembler.sequences := hsequences ▸ List.mem_cons_self
    have hstats : { indexed.stats with evicted := indexed.stats.evicted + 1 } =
        { assembler.stats with evicted := assembler.stats.evicted + 1 } := by rw [h.stats_eq]
    have hswept := (h.counting hstats).timeOut (horder.forgetting (.refl _) assembler.clock _)
      hfirst
    have hslots : indexed.idleOrder = first.slot :: rest.map FragmentSequence.slot := by
      rw [h.index_eq, hsequences, List.map_cons]
    rw [IndexedAssembler.makeRoom, if_pos (hsize.2 hfull), evictOldest_of_cons hslots, heq,
      ← Assembler.others_first horder.distinct hsequences]
    exact hswept

theorem Represents.reopened (h : indexed.Represents assembler) (key : κ) :
    (indexed.reopened key).Represents (assembler.reopened key) where
  config_eq := h.config_eq
  clock_eq := h.clock_eq
  opened_eq := h.opened_eq
  stats_eq := by
    simp [IndexedAssembler.reopened, Assembler.reopened, h.stats_eq, h.isSome_closed]
  sequences_perm := h.sequences_perm
  closed_iff other time := by
    simp [IndexedAssembler.reopened, Assembler.reopened, h.closed_iff, and_comm]
  queued closing hclosing := h.queued closing (List.mem_filter.1 hclosing).1
  queue_sorted := h.queue_sorted
  queue_le := h.queue_le
  index_eq := h.index_eq

/-- A sequence is put into both in place of the one of its key, if there is one. -/
theorem Agrees.storing (h : indexed.Agrees assembler) {sequence : FragmentSequence κ}
    {slots : List (SequenceSlot κ)}
    (hslots : slots =
      (Idle.place sequence (assembler.others sequence.key)).map FragmentSequence.slot)
    {counted stats : AssemblyStats} (hstats : counted = stats) :
    Represents
      { indexed with
        sequences := indexed.sequences.insert sequence.key sequence
        idleOrder := slots
        stats := counted }
      { assembler with
        sequences := Idle.place sequence (assembler.others sequence.key)
        stats := stats } := by
  have hplaced := (Idle.perm_place sequence (assembler.others sequence.key)).map
    (fun sequence => (sequence.key, sequence))
  have hperm : (indexed.sequences.insert sequence.key sequence).entries.Perm
      ((Idle.place sequence (assembler.others sequence.key)).map
        (fun sequence => (sequence.key, sequence))) :=
    ((h.perm_erase sequence.key).cons _).trans hplaced.symm
  exact ⟨h.holding hperm hstats, hslots⟩

/-- One sequence more has been opened in both. -/
theorem Represents.numbering (h : indexed.Represents assembler) :
    Represents { indexed with opened := indexed.opened + 1 }
      { assembler with opened := assembler.opened + 1 } where
  config_eq := h.config_eq
  clock_eq := h.clock_eq
  opened_eq := congrArg (· + 1) h.opened_eq
  stats_eq := h.stats_eq
  sequences_perm := h.sequences_perm
  closed_iff := h.closed_iff
  queued := h.queued
  queue_sorted := h.queue_sorted
  queue_le := h.queue_le
  index_eq := h.index_eq

/-- A sequence is opened for a key that does not stand in the books. -/
theorem Represents.opening (h : indexed.Represents assembler) (horder : assembler.InOrder)
    (sequence : FragmentSequence κ) (hkey : sequence.key ∉ assembler.keys)
    (hserial : sequence.serial = assembler.opened) {counted stats : AssemblyStats}
    (hstats : counted = stats) :
    Represents
      { indexed with
        sequences := indexed.sequences.insert sequence.key sequence
        idleOrder := SequenceSlot.file sequence.key sequence indexed.idleOrder
        opened := indexed.opened + 1
        stats := counted }
      { assembler with
        sequences := Idle.place sequence assembler.sequences
        opened := assembler.opened + 1
        stats := stats } := by
  have hothers : assembler.others sequence.key = assembler.sequences := by
    rw [Assembler.others, List.filter_eq_self]
    intro other hother
    rw [decide_eq_true_eq]
    intro hsame
    exact hkey (List.mem_append_left _ (hsame ▸ List.mem_map_of_mem hother))
  have hslots : SequenceSlot.file sequence.key sequence indexed.idleOrder =
      (Idle.place sequence (assembler.others sequence.key)).map FragmentSequence.slot := by
    rw [SequenceSlot.file, h.index_eq, SequenceSlot.unfile_eq_self, hothers,
      ← SequenceSlot.place_slot]
    · rfl
    · intro other hother
      exact Nat.ne_of_lt (hserial ▸ horder.serial_lt other hother)
  have hstored := (h.storing hslots hstats).numbering
  rwa [hothers] at hstored

theorem Represents.openSequence (h : indexed.Represents assembler) (horder : assembler.InOrder)
    {key : κ} (hclosed : assembler.get? key = none) (time : Timestamp) :
    RepresentsResult (indexed.openSequence key time) (assembler.openSequence key time) := by
  have hreopened : (assembler.reopened key).InOrder :=
    horder.forgetting List.filter_sublist assembler.clock _
  obtain ⟨hroomy, hevents⟩ := (h.reopened key).makeRoom hreopened
  have hkey := Assembler.not_mem_keys_reopened hclosed
  have hstats := congrArg
    (fun stats => { stats with sequencesStarted := stats.sequencesStarted + 1 }) hroomy.stats_eq
  have hstart := congrArg (FragmentSequence.start key time) hroomy.opened_eq
  rw [Assembler.openSequence_eq hclosed, IndexedAssembler.openSequence]
  constructor
  · simp only [← hstart]
    exact hroomy.opening hreopened.makeRoom (.start key time _) hkey hroomy.opened_eq hstats
  · exact congrArg (· ++ [_]) hevents

theorem Represents.ensureOpen (h : indexed.Represents assembler) (horder : assembler.InOrder)
    (key : κ) (time : Timestamp) :
    RepresentsResult (indexed.ensureOpen key time) (assembler.ensureOpen key time) := by
  have hget := h.get?_eq horder.distinct key
  cases hopen : assembler.get? key with
  | some sequence =>
    rw [IndexedAssembler.ensureOpen, hget, hopen, Assembler.ensureOpen_of_open hopen]
    exact ⟨h, rfl⟩
  | none =>
    rw [IndexedAssembler.ensureOpen, hget, hopen, Assembler.ensureOpen_of_closed hopen]
    exact h.openSequence horder hopen time

/-- The slot of a sequence that has grown is in its place, whether it had to move or not. -/
theorem Represents.reindex (h : indexed.Represents assembler) (horder : assembler.InOrder)
    {sequence : FragmentSequence κ} (hsequence : sequence ∈ assembler.sequences)
    (grown : FragmentSequence κ) (hkey : grown.key = sequence.key)
    (hserial : grown.serial = sequence.serial) :
    indexed.reindex grown.key sequence grown =
      (Idle.place grown (assembler.others grown.key)).map FragmentSequence.slot := by
  rw [IndexedAssembler.reindex, h.index_eq]
  split
  · next htime =>
    have hslot : grown.slot = sequence.slot := by
      simp [FragmentSequence.slot, htime, hkey, hserial]
    have hplaced := (Idle.perm_place grown (assembler.others grown.key)).map FragmentSequence.slot
    rw [List.map_cons, hslot, hkey, ← List.map_cons] at hplaced
    have hall := hplaced.trans ((Assembler.perm_others horder.distinct hsequence).map _)
    have hordered := (horder.replace hsequence grown hkey hserial).ordered
    rw [hkey] at hordered ⊢
    exact Idle.eq_of_perm (List.pairwise_map.2 horder.ordered) (List.pairwise_map.2 hordered)
      hall.symm
  · have hother : ∀ other ∈ assembler.others grown.key, other.serial ≠ grown.serial := by
      intro other hmem hsame
      have heq := horder.eq_of_serial (mem_others.1 hmem).1 hsequence (hsame.trans hserial)
      exact (mem_others.1 hmem).2 (heq ▸ hkey.symm)
    rw [SequenceSlot.file, horder.unfile_slots hsequence, ← hkey,
      SequenceSlot.unfile_eq_self hother]
    exact SequenceSlot.place_slot grown _

/-- A sequence that is in its place ends, or stays. -/
theorem Represents.settle (h : indexed.Represents assembler) (horder : assembler.InOrder)
    {sequence : FragmentSequence κ} (hsequence : sequence ∈ assembler.sequences) :
    RepresentsResult (indexed.settle sequence.key sequence) (assembler.settle sequence) := by
  by_cases hcovered : sequence.IsCovered
  · have hstats : { indexed.stats with completed := indexed.stats.completed + 1 } =
        { assembler.stats with completed := assembler.stats.completed + 1 } := by rw [h.stats_eq]
    rw [IndexedAssembler.settle, Assembler.settle, if_pos hcovered, if_pos hcovered]
    refine ⟨⟨(h.holding (h.perm_erase sequence.key) hstats).markClosed
      (fun _ => horder.ne_of_closed hsequence), ?_⟩, rfl⟩
    rw [h.index_eq]
    exact horder.unfile_slots hsequence
  · rw [IndexedAssembler.settle, if_neg hcovered, horder.settle_of_mem hsequence hcovered]
    exact ⟨h, rfl⟩

theorem Represents.addFragment (h : indexed.Represents assembler) (horder : assembler.InOrder)
    {key : κ} {sequence : FragmentSequence κ} (hopen : assembler.get? key = some sequence)
    (fragment : Fragment) :
    RepresentsResult (indexed.addFragment key fragment) (assembler.addFragment key fragment) := by
  obtain ⟨hsequence, rfl⟩ := Assembler.get?_mem hopen
  have hget := (h.get?_eq horder.distinct sequence.key).trans hopen
  cases hretains : sequence.retains fragment with
  | true =>
    simp only [IndexedAssembler.addFragment, Assembler.addFragment, hget, hopen,
      FragmentSequence.place_of_retains hretains]
    exact ⟨h.counting (by rw [h.stats_eq]), rfl⟩
  | false =>
    let grown := sequence.extended fragment
    let count (stats : AssemblyStats) : AssemblyStats :=
      { stats with
        fragments := stats.fragments + 1
        overlaps :=
          if sequence.isOverlappedBy fragment then stats.overlaps + 1 else stats.overlaps }
    have hplaced := h.storing (h.reindex horder hsequence grown rfl rfl)
      (congrArg count h.stats_eq)
    have horder' := (horder.replace hsequence grown rfl rfl).forgetting (.refl _) assembler.clock
      (count assembler.stats)
    have hsettled := hplaced.settle horder' (Idle.mem_place.2 (.inl rfl))
    have hplain : Assembler.settle
        { assembler with
          sequences := Idle.place grown (assembler.others grown.key)
          stats := count assembler.stats } grown =
        Assembler.settle { assembler with stats := count assembler.stats } grown :=
      Assembler.settle_replaced { assembler with stats := count assembler.stats } grown
    rw [hplain] at hsettled
    simp only [IndexedAssembler.addFragment, Assembler.addFragment, hget, hopen,
      FragmentSequence.place_of_not_retains hretains]
    exact ⟨hsettled.assembler, congrArg _ hsettled.events⟩

theorem Represents.insert (h : indexed.Represents assembler) (hregular : assembler.Regular)
    (horder : assembler.InOrder) (key : κ) (fragment : Fragment) :
    RepresentsResult (indexed.insert key fragment) (assembler.insert key fragment) := by
  have hadvanced := h.advance hregular horder fragment.timestamp
  have hready := hadvanced.assembler.ensureOpen (horder.advance fragment.timestamp) key
    fragment.timestamp
  have hadded := hready.assembler.addFragment (horder.ready key fragment.timestamp)
    (assembler.get?_ready key fragment.timestamp) (assembler.config.stored fragment)
  rw [IndexedAssembler.insert, Assembler.insert, h.config_eq]
  refine ⟨hadded.assembler, ?_⟩
  exact congrArg₂ _ (congrArg₂ _ hadvanced.events hready.events) hadded.events

end IndexedAssembler

end Dissection
