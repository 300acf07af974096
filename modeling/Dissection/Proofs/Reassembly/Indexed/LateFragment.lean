import Dissection.Proofs.Reassembly.Delivery
import Dissection.Proofs.Reassembly.Indexed.Run

/-!
# Late fragments

A fragment that opens a sequence is late when the last sequence of its key ended no longer ago than
the window. An assembler counts exactly those: what it remembers of a key without an open sequence
is the time of the last end, as long as that is within the window, whatever older ends of the key
are left behind in its queue.
-/

namespace Dissection

variable {κ : Type} [DecidableEq κ]

namespace AssemblyEvent

@[simp] theorem ends_newFragment (key other : κ) (offset length : Nat) :
    (newFragment other offset length).ends key = false := rfl

@[simp] theorem ends_complete (key : κ) (sequence : FragmentSequence κ) :
    (complete sequence).ends key = decide (sequence.key = key) := rfl

/-- The last end of a key after some events, all at one time. -/
def lastEnd (key : κ) (now : Timestamp) (earlier : Option Timestamp)
    (events : List (AssemblyEvent κ)) : Option Timestamp :=
  if events.any (·.ends key) then some now else earlier

theorem lastEnd_append (key : κ) (now : Timestamp) (earlier : Option Timestamp)
    (events more : List (AssemblyEvent κ)) :
    lastEnd key now earlier (events ++ more) =
      lastEnd key now (lastEnd key now earlier events) more := by
  by_cases h : more.any (·.ends key) = true
  · simp [lastEnd, h]
  · simp [lastEnd, h]

theorem lastEnd_of_none {key : κ} {events : List (AssemblyEvent κ)}
    (h : events.any (·.ends key) = false) (now : Timestamp) (earlier : Option Timestamp) :
    lastEnd key now earlier events = earlier := by
  simp [lastEnd, h]

end AssemblyEvent

open AssemblyEvent (lastEnd lastEnd_append lastEnd_of_none)

namespace Assembler

variable {assembler next : Assembler κ} {key : κ} {last : Option Timestamp}

/-- While a key has no open sequence, the assembler remembers its last end, if that is within the
window. -/
def Remembers (assembler : Assembler κ) (key : κ) (last : Option Timestamp) : Prop :=
  ∀ time, ⟨time, key⟩ ∈ assembler.closings ↔
    assembler.get? key = none ∧ last = some time ∧
      isExpired assembler.now time assembler.config.window = false

/-- What is remembered of a key only depends on its own ends, and on whether it has a sequence. -/
theorem Remembers.congr (h : assembler.Remembers key last) (hnow : next.now = assembler.now)
    (hconfig : next.config = assembler.config)
    (hclosings : ∀ time, ⟨time, key⟩ ∈ next.closings ↔ ⟨time, key⟩ ∈ assembler.closings)
    (hopen : next.get? key = none ↔ assembler.get? key = none) : next.Remembers key last := by
  intro time
  rw [hclosings, h time, hnow, hconfig, hopen]

/-- Some sequences end, at the present time. -/
theorem Remembers.ending (h : assembler.Remembers key last) (hdistinct : assembler.DistinctKeys)
    {ended : List (FragmentSequence κ)}
    (hsplit : (ended ++ next.sequences).Perm assembler.sequences)
    (hclosings : next.closings =
      assembler.closings ++ ended.map (fun sequence => ⟨assembler.now, sequence.key⟩))
    (hnow : next.now = assembler.now) (hconfig : next.config = assembler.config)
    {events : List (AssemblyEvent κ)}
    (hevents : events.any (·.ends key) = ended.any (·.key = key)) :
    next.Remembers key (lastEnd key next.now last events) := by
  intro time
  have hkeys : (ended ++ next.sequences).Pairwise (fun a b => a.key ≠ b.key) :=
    hsplit.pairwise_iff (fun hne => hne.symm) |>.2 hdistinct
  have hmem : ∀ sequence, sequence ∈ assembler.sequences ↔
      sequence ∈ ended ∨ sequence ∈ next.sequences := by
    intro sequence
    rw [← hsplit.mem_iff, List.mem_append]
  have hnoted : ⟨time, key⟩ ∈ ended.map (fun sequence => Closing.mk assembler.now sequence.key) ↔
      assembler.now = time ∧ ∃ sequence ∈ ended, sequence.key = key := by
    simp only [List.mem_map, Closing.mk.injEq]
    exact ⟨fun ⟨s, hs, htime, hkey⟩ => ⟨htime, s, hs, hkey⟩,
      fun ⟨htime, s, hs, hkey⟩ => ⟨s, hs, htime, hkey⟩⟩
  have hany : ended.any (·.key = key) = decide (∃ sequence ∈ ended, sequence.key = key) := by
    rw [Bool.eq_iff_iff]
    simp
  rw [hclosings, List.mem_append, h time, hnoted, hnow, hconfig, lastEnd, hevents, hany]
  by_cases hkey : ∃ sequence ∈ ended, sequence.key = key
  · obtain ⟨sequence, hsequence, rfl⟩ := hkey
    have hopen : assembler.get? sequence.key ≠ none := fun hnone =>
      get?_eq_none_iff.1 hnone sequence ((hmem sequence).2 (.inl hsequence)) rfl
    have hclosed : next.get? sequence.key = none := get?_eq_none_iff.2 fun other hother =>
      ((List.pairwise_append.1 hkeys).2.2 sequence hsequence other hother).symm
    have hended : ∃ other ∈ ended, other.key = sequence.key := ⟨sequence, hsequence, rfl⟩
    simp only [hopen, hclosed, hended, false_and, false_or, and_true, true_and, decide_true,
      if_true, Option.some.injEq]
    refine (and_iff_left_of_imp ?_).symm
    rintro rfl
    exact isExpired_self _ _
  · have hsame : next.get? key = none ↔ assembler.get? key = none := by
      rw [get?_eq_none_iff, get?_eq_none_iff]
      constructor
      · intro hnone sequence hsequence
        rcases (hmem sequence).1 hsequence with hended | hkept
        · exact fun heq => hkey ⟨sequence, hended, heq⟩
        · exact hnone sequence hkept
      · exact fun hnone sequence hsequence => hnone sequence ((hmem sequence).2 (.inr hsequence))
    simp [hkey, hsame]

/-- A sweep of timeouts. -/
theorem Remembers.timeOut (h : assembler.Remembers key last) (hdistinct : assembler.DistinctKeys)
    {ended kept : List (FragmentSequence κ)} (hsplit : (ended ++ kept).Perm assembler.sequences) :
    (assembler.timeOut ended kept).1.Remembers key
      (lastEnd key (assembler.timeOut ended kept).1.now last (assembler.timeOut ended kept).2) := by
  have hevents : (assembler.timeOut ended kept).2.any (·.ends key) = ended.any (·.key = key) := by
    rw [Assembler.timeOut, List.any_map]
    rfl
  have hclosings : (assembler.timeOut ended kept).1.closings = assembler.closings ++
      ended.map (fun sequence => ⟨assembler.now, sequence.key⟩) := rfl
  exact h.ending hdistinct hsplit hclosings rfl rfl hevents

/-- The clock moves, and ends that are too long ago are forgotten. -/
theorem Remembers.forgetting (h : assembler.Remembers key last) (hregular : assembler.Regular)
    (time : Timestamp) :
    Remembers
      { assembler with
        clock := assembler.clock.observe time
        closings := assembler.closings.dropWhile (fun closing =>
          isExpired (max assembler.now time) closing.time assembler.config.window) } key last := by
  intro ended
  have hcurrent : isExpired (max assembler.now time) ended assembler.config.window = false →
      isExpired assembler.now ended assembler.config.window = false := by
    intro hlater
    refine Bool.eq_false_iff.2 fun hexpired => ?_
    exact Bool.eq_false_iff.1 hlater
      (isExpired_of_now_le (Timestamp.le_max_left _ _) hexpired)
  rw [dropWhile_isExpired hregular.closings_sorted, List.mem_filter, h ended]
  simp only [Bool.not_eq_true', and_assoc]
  exact and_congr_right fun _ => and_congr_right fun _ => and_iff_right_of_imp hcurrent

theorem Remembers.advance (h : assembler.Remembers key last) (hregular : assembler.Regular)
    (time : Timestamp) :
    (assembler.advance time).1.Remembers key
      (lastEnd key (assembler.advance time).1.now last (assembler.advance time).2) :=
  (h.forgetting hregular time).timeOut hregular.distinct
    (.of_eq (Idle.overdue_append_current _ _ _))

theorem Remembers.flush (h : assembler.Remembers key last) (hdistinct : assembler.DistinctKeys) :
    assembler.flush.1.Remembers key
      (lastEnd key assembler.flush.1.now last assembler.flush.2) := by
  refine h.timeOut hdistinct ?_
  rw [List.append_nil]
  exact perm_inOpeningOrder assembler.sequences

theorem Remembers.makeRoom (h : assembler.Remembers key last)
    (hdistinct : assembler.DistinctKeys) :
    assembler.makeRoom.1.Remembers key
      (lastEnd key assembler.makeRoom.1.now last assembler.makeRoom.2) := by
  rcases assembler.makeRoom_cases with ⟨_, heq⟩ | ⟨_, first, rest, hsequences, heq⟩
  · rw [heq]
    exact h
  · rw [heq]
    exact timeOut (h.congr rfl rfl (fun _ => .rfl) .rfl) hdistinct (.of_eq hsequences.symm)

/-- Nothing ends for a key by the start of a sequence, and the end of its own key is forgotten. -/
theorem Remembers.ensureOpen (h : assembler.Remembers key last)
    (hdistinct : assembler.DistinctKeys) (other : κ) (time : Timestamp) :
    (assembler.ensureOpen other time).1.Remembers key
      (lastEnd key (assembler.ensureOpen other time).1.now last
        (assembler.ensureOpen other time).2) := by
  cases hopen : assembler.get? other with
  | some sequence =>
    rw [ensureOpen_of_open hopen]
    exact h
  | none =>
    have hroomy := h.makeRoom hdistinct
    have hnow := assembler.now_ensureOpen other time
    rw [ensureOpen_of_closed hopen] at hnow ⊢
    rw [events_openSequence, lastEnd_append, lastEnd_of_none rfl, hnow, ← now_makeRoom]
    by_cases hkey : key = other
    · subst hkey
      have hsome : (assembler.openSequence key time).1.get? key ≠ none := by
        rw [← ensureOpen_of_closed hopen, get?_ensureOpen]
        exact Option.some_ne_none _
      have hforgotten : ∀ ended, ⟨ended, key⟩ ∉ (assembler.openSequence key time).1.closings := by
        simp [Assembler.openSequence]
      intro ended
      simp [hsome, hforgotten]
    · refine hroomy.congr (hnow.trans (now_makeRoom _).symm) rfl ?_ ?_
      · simp [Assembler.openSequence, hkey]
      · rw [get?_openSequence_of_ne (Ne.symm hkey) hdistinct hopen]

theorem Remembers.addFragment (h : assembler.Remembers key last)
    (hdistinct : assembler.DistinctKeys) {other : κ} {sequence : FragmentSequence κ}
    (hopen : assembler.get? other = some sequence) (fragment : Fragment) :
    (assembler.addFragment other fragment).1.Remembers key
      (lastEnd key (assembler.addFragment other fragment).1.now last
        (assembler.addFragment other fragment).2) := by
  obtain ⟨hconfig, hnow⟩ := assembler.addFragment_frame other fragment
  have hclosings := closings_addFragment hopen fragment
  by_cases hends : sequence.retains fragment = false ∧ (sequence.extended fragment).IsCovered
  · obtain ⟨hretains, hcovered⟩ := hends
    obtain ⟨hsequence, rfl⟩ := get?_mem hopen
    rw [if_pos ⟨hretains, hcovered⟩] at hclosings
    have hsplit : ([sequence] ++ (assembler.addFragment sequence.key fragment).1.sequences).Perm
        assembler.sequences := by
      rw [(addFragment_of_covered hopen hretains hcovered).1]
      exact perm_others hdistinct hsequence
    refine h.ending hdistinct hsplit hclosings hnow hconfig ?_
    rw [(addFragment_of_covered hopen hretains hcovered).2]
    simp [FragmentSequence.extended]
  · have hquiet : (assembler.addFragment other fragment).2.any (·.ends key) = false := by
      rw [events_addFragment hopen]
      split
      · rfl
      · next hretains =>
        have hcovered : ¬ (sequence.extended fragment).IsCovered := fun hcovered =>
          hends ⟨Bool.eq_false_iff.2 hretains, hcovered⟩
        simp [hcovered]
    rw [if_neg hends, List.append_nil] at hclosings
    rw [lastEnd_of_none hquiet]
    refine h.congr hnow hconfig (fun ended => by rw [hclosings]) ?_
    by_cases hkey : other = key
    · subst hkey
      have hkept := get?_addFragment hdistinct hopen (fun hretains hcovered =>
        hends ⟨hretains, hcovered⟩)
      simp [hkept, hopen]
    · rw [get?_addFragment_of_ne hkey hdistinct hopen]

theorem Remembers.apply (h : assembler.Remembers key last) (hregular : assembler.Regular)
    (operation : AssemblyOperation κ) :
    (assembler.apply operation).1.Remembers key
      (lastEnd key (assembler.apply operation).1.now last (assembler.apply operation).2) := by
  cases operation with
  | advance time => exact h.advance hregular time
  | flush => exact h.flush hregular.distinct
  | insert other fragment =>
    have hadvanced := h.advance hregular fragment.timestamp
    have hready := hadvanced.ensureOpen (hregular.advance fragment.timestamp).distinct other
      fragment.timestamp
    have hadded := hready.addFragment (hregular.distinct.ready other fragment.timestamp)
      (assembler.get?_ready other fragment.timestamp) (assembler.config.stored fragment)
    simp only [now_ensureOpen, (addFragment_frame _ _ _).2, ← lastEnd_append] at hadded
    have hnow : (assembler.insert other fragment).1.now =
        (assembler.advance fragment.timestamp).1.now := by rw [now_insert, now_advance]
    rw [Assembler.apply, hnow]
    exact hadded

/-- A key whose last end is remembered is one that ended within the window and is not open. -/
theorem Remembers.isRecentlyClosed_iff (h : assembler.Remembers key last) :
    assembler.isRecentlyClosed key = true ↔
      assembler.get? key = none ∧ ∃ ended, last = some ended ∧
        isExpired assembler.now ended assembler.config.window = false := by
  rw [isRecentlyClosed, List.any_eq_true, ← exists_and_left]
  simp only [← h _, decide_eq_true_eq]
  constructor
  · rintro ⟨⟨time, other⟩, hmem, rfl⟩
    exact ⟨time, hmem⟩
  · rintro ⟨time, hmem⟩
    exact ⟨_, hmem, rfl⟩

omit [DecidableEq κ] in
theorem lateFragments_makeRoom (assembler : Assembler κ) :
    assembler.makeRoom.1.stats.lateFragments = assembler.stats.lateFragments := by
  rcases assembler.makeRoom_cases with ⟨_, heq⟩ | ⟨_, first, rest, _, heq⟩
  · rw [heq]
  · rw [heq]
    rfl

theorem lateFragments_ensureOpen (assembler : Assembler κ) (key : κ) (time : Timestamp) :
    (assembler.ensureOpen key time).1.stats.lateFragments = assembler.stats.lateFragments +
      if assembler.get? key = none ∧ assembler.isRecentlyClosed key = true then 1 else 0 := by
  cases hopen : assembler.get? key with
  | some sequence => simp [ensureOpen_of_open hopen]
  | none =>
    rw [ensureOpen_of_closed hopen]
    simp [openSequence, lateFragments_makeRoom]

theorem lateFragments_addFragment (assembler : Assembler κ) (key : κ) (fragment : Fragment) :
    (assembler.addFragment key fragment).1.stats.lateFragments =
      assembler.stats.lateFragments := by
  unfold addFragment
  split
  · rfl
  · split
    · rfl
    · unfold settle
      simp only
      split <;> rfl

theorem lateFragments_insert (assembler : Assembler κ) (key : κ) (fragment : Fragment) :
    (assembler.insert key fragment).1.stats.lateFragments = assembler.stats.lateFragments +
      if (assembler.advance fragment.timestamp).1.get? key = none ∧
        (assembler.advance fragment.timestamp).1.isRecentlyClosed key = true then 1 else 0 := by
  rw [insert_eq, lateFragments_addFragment, ready, lateFragments_ensureOpen]
  rfl

end Assembler

namespace IndexedAssembler

/-- The clock when the last sequence of a key ended in a run, if one did. A call moves the clock
before it ends anything. -/
def lastEnd? (indexed : IndexedAssembler κ) (key : κ) :
    List (AssemblyOperation κ) → Option Timestamp
  | [] => none
  | operation :: rest =>
    ((indexed.apply operation).1.lastEnd? key rest).or
      (lastEnd key (indexed.apply operation).1.now none (indexed.apply operation).2)

theorem lastEnd?_concat (indexed : IndexedAssembler κ) (key : κ)
    (operations : List (AssemblyOperation κ)) (operation : AssemblyOperation κ) :
    indexed.lastEnd? key (operations ++ [operation]) =
      lastEnd key ((indexed.after operations).apply operation).1.now
        (indexed.lastEnd? key operations) ((indexed.after operations).apply operation).2 := by
  induction operations generalizing indexed with
  | nil => simp [lastEnd?, after]
  | cons first rest ih =>
    rw [List.cons_append, lastEnd?, ih, lastEnd?, after]
    simp only [lastEnd]
    split <;> rfl

/-- What the plain assembler remembers of a key is the last end in the run, within the window. -/
theorem remembers_after (config : AssemblyConfig) (operations : List (AssemblyOperation κ))
    (key : κ) :
    ((Assembler.ofConfig config).after operations).Remembers key
      ((ofConfig config).lastEnd? key operations) := by
  induction operations using List.reverseRecOn with
  | nil =>
    intro time
    simp [Assembler.after, Assembler.ofConfig, lastEnd?]
  | append_singleton operations operation ih =>
    have hregular := Assembler.regular_after config operations
    have hstep := (represents_after config operations).apply hregular
      (Assembler.inOrder_after config operations) operation
    rw [Assembler.after_concat, lastEnd?_concat, hstep.assembler.now_eq, hstep.events]
    exact ih.apply hregular operation

/-- A fragment is counted as late exactly when its key has no open sequence at the time of the
fragment, and the last one ended no longer ago than the window. Nothing else is counted. -/
theorem lateFragments_after (config : AssemblyConfig) (operations : List (AssemblyOperation κ)) :
    let indexed := (ofConfig config).after operations
    (∀ key fragment,
      let advanced := (indexed.advance fragment.timestamp).1
      let inserted := (indexed.insert key fragment).1
      (inserted.stats.lateFragments = indexed.stats.lateFragments + 1 ↔
        advanced.get? key = none ∧
          ∃ ended, (ofConfig config).lastEnd? key
              (operations ++ [.advance fragment.timestamp]) = some ended ∧
            (advanced.now.since ended).nanos ≤ config.window.nanos) ∧
      (inserted.stats.lateFragments = indexed.stats.lateFragments ∨
        inserted.stats.lateFragments = indexed.stats.lateFragments + 1)) ∧
    (∀ time, (indexed.advance time).1.stats.lateFragments = indexed.stats.lateFragments) ∧
      indexed.flush.1.stats.lateFragments = indexed.stats.lateFragments := by
  intro indexed
  have h : indexed.Represents ((Assembler.ofConfig config).after operations) :=
    represents_after config operations
  have hregular := Assembler.regular_after config operations
  have horder := Assembler.inOrder_after config operations
  refine ⟨?_, ?_, ?_⟩
  · intro key fragment advanced inserted
    have hadvanced := (h.advance hregular horder fragment.timestamp).assembler
    have hinserted := (h.insert hregular horder key fragment).assembler
    have hremembers := remembers_after config (operations ++ [.advance fragment.timestamp]) key
    rw [Assembler.after_concat, Assembler.apply] at hremembers
    have hlate := hremembers.isRecentlyClosed_iff
    rw [Assembler.config_advance, Assembler.config_after, ← hadvanced.now_eq,
      ← hadvanced.get?_eq (horder.advance fragment.timestamp).distinct] at hlate
    simp only [isExpired_eq_false_iff] at hlate
    rw [hinserted.stats_eq, h.stats_eq, Assembler.lateFragments_insert,
      ← hadvanced.get?_eq (horder.advance fragment.timestamp).distinct]
    split
    · next hcounted =>
      rw [hlate, and_self_left] at hcounted
      exact ⟨iff_of_true rfl hcounted, .inr rfl⟩
    · next hcounted =>
      rw [hlate, and_self_left] at hcounted
      exact ⟨iff_of_false (Nat.ne_of_lt (Nat.lt_succ_self _)) hcounted, .inl rfl⟩
  · intro time
    rw [(h.advance hregular horder time).assembler.stats_eq, h.stats_eq]
    rfl
  · rw [(h.flush horder).assembler.stats_eq, h.stats_eq]
    rfl

end IndexedAssembler

end Dissection
