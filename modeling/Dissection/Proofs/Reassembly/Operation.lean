import Dissection.Proofs.IdleOrder
import Dissection.Proofs.Reassembly.Retention

/-!
# Operations on an assembler

What advancing the clock, opening a sequence and adding a fragment do to the open sequences, and
which events they return. An insertion does the three in turn: it adds its fragment to the target,
which is the open sequence of its key or a new one. No two open sequences ever belong to the same
key.
-/

namespace Dissection

namespace Assembler

variable {κ : Type}

@[simp] theorem config_advance (assembler : Assembler κ) (time : Timestamp) :
    (assembler.advance time).1.config = assembler.config := rfl

@[simp] theorem now_advance (assembler : Assembler κ) (time : Timestamp) :
    (assembler.advance time).1.now = max assembler.now time := rfl

theorem events_advance (assembler : Assembler κ) (time : Timestamp) :
    (assembler.advance time).2 =
      (Idle.overdue (max assembler.now time) assembler.config.window assembler.sequences).map
        (fun sequence => .timeout { sequence with status := .timedOut }) := rfl

theorem events_advance_timeout (assembler : Assembler κ) (time : Timestamp) :
    ∀ event ∈ (assembler.advance time).2, ∃ sequence, event = .timeout sequence := by
  intro event hevent
  rw [events_advance] at hevent
  obtain ⟨sequence, _, rfl⟩ := List.mem_map.1 hevent
  exact ⟨_, rfl⟩

theorem sequences_advance_sublist (assembler : Assembler κ) (time : Timestamp) :
    (assembler.advance time).1.sequences.Sublist assembler.sequences :=
  List.dropWhile_sublist _

theorem events_flush_timeout (assembler : Assembler κ) :
    ∀ event ∈ assembler.flush.2, ∃ sequence, event = .timeout sequence := by
  intro event hevent
  obtain ⟨sequence, _, rfl⟩ := List.mem_map.1 hevent
  exact ⟨_, rfl⟩

/-- Making room does nothing, or times out the sequence idle for longest. -/
theorem makeRoom_cases (assembler : Assembler κ) :
    (assembler.size < assembler.config.maxSequences ∨ assembler.sequences = []) ∧
        assembler.makeRoom = (assembler, []) ∨
      ¬ assembler.size < assembler.config.maxSequences ∧
        ∃ first rest, assembler.sequences = first :: rest ∧
          assembler.makeRoom =
            ({ assembler with
                stats := { assembler.stats with
                  evicted := assembler.stats.evicted + 1 } } : Assembler κ).timeOut [first] rest := by
  by_cases hroom : assembler.size < assembler.config.maxSequences
  · exact .inl ⟨.inl hroom, if_pos hroom⟩
  · cases hsequences : assembler.sequences with
    | nil => exact .inl ⟨.inr rfl, by rw [makeRoom, if_neg hroom, hsequences]⟩
    | cons first rest =>
      exact .inr ⟨hroom, first, rest, rfl, by rw [makeRoom, if_neg hroom, hsequences]⟩

@[simp] theorem config_makeRoom (assembler : Assembler κ) :
    assembler.makeRoom.1.config = assembler.config := by
  rcases assembler.makeRoom_cases with ⟨_, h⟩ | ⟨_, first, rest, _, h⟩
  · rw [h]
  · rw [h]
    rfl

@[simp] theorem now_makeRoom (assembler : Assembler κ) :
    assembler.makeRoom.1.now = assembler.now := by
  rcases assembler.makeRoom_cases with ⟨_, h⟩ | ⟨_, first, rest, _, h⟩
  · rw [h]
  · rw [h]
    rfl

@[simp] theorem opened_makeRoom (assembler : Assembler κ) :
    assembler.makeRoom.1.opened = assembler.opened := by
  rcases assembler.makeRoom_cases with ⟨_, h⟩ | ⟨_, first, rest, _, h⟩
  · rw [h]
  · rw [h]
    rfl

theorem sequences_makeRoom_sublist (assembler : Assembler κ) :
    assembler.makeRoom.1.sequences.Sublist assembler.sequences := by
  rcases assembler.makeRoom_cases with ⟨_, h⟩ | ⟨_, first, rest, hsequences, h⟩
  · rw [h]
  · rw [h, hsequences]
    exact List.sublist_cons_self first rest

/-- Whoever makes room was open. -/
theorem events_makeRoom (assembler : Assembler κ) :
    ∀ event ∈ assembler.makeRoom.2, ∃ sequence ∈ assembler.sequences,
      event = .timeout { sequence with status := .timedOut } := by
  rcases assembler.makeRoom_cases with ⟨_, h⟩ | ⟨_, first, rest, hsequences, h⟩
  · simp [h]
  · simp [h, hsequences, timeOut]

def DistinctKeys (assembler : Assembler κ) : Prop :=
  assembler.sequences.Pairwise (fun a b => a.key ≠ b.key)

theorem DistinctKeys.eq_of_key_eq {assembler : Assembler κ} (h : assembler.DistinctKeys)
    {a b : FragmentSequence κ} (ha : a ∈ assembler.sequences) (hb : b ∈ assembler.sequences)
    (hkey : a.key = b.key) : a = b := by
  have himp : assembler.sequences.Pairwise (fun a b => a.key = b.key → a = b) :=
    h.imp (fun hne heq => absurd heq hne)
  have hflip : assembler.sequences.Pairwise (flip (fun a b => a.key = b.key → a = b)) :=
    h.imp (fun hne heq => absurd heq.symm hne)
  exact List.Pairwise.forall_of_forall_of_flip (fun _ _ _ => rfl) himp hflip ha hb hkey

theorem distinctKeys_of_place {assembler : Assembler κ} {sequence : FragmentSequence κ}
    {others : List (FragmentSequence κ)}
    (hsequences : assembler.sequences = Idle.place sequence others)
    (hothers : others.Pairwise (fun a b => a.key ≠ b.key))
    (hnew : ∀ other ∈ others, other.key ≠ sequence.key) : assembler.DistinctKeys := by
  unfold DistinctKeys
  rw [hsequences, (Idle.perm_place sequence others).pairwise_iff (fun h => h.symm)]
  exact List.pairwise_cons.2 ⟨fun other hother => (hnew other hother).symm, hothers⟩

variable [DecidableEq κ]

theorem get?_eq_none_iff {assembler : Assembler κ} {key : κ} :
    assembler.get? key = none ↔ ∀ sequence ∈ assembler.sequences, sequence.key ≠ key := by
  simp [get?]

theorem get?_mem {assembler : Assembler κ} {key : κ} {sequence : FragmentSequence κ}
    (h : assembler.get? key = some sequence) :
    sequence ∈ assembler.sequences ∧ sequence.key = key :=
  ⟨List.mem_of_find?_eq_some h, by simpa using List.find?_some h⟩

theorem DistinctKeys.get?_eq_some_iff {assembler : Assembler κ} (h : assembler.DistinctKeys)
    {key : κ} {sequence : FragmentSequence κ} :
    assembler.get? key = some sequence ↔
      sequence ∈ assembler.sequences ∧ sequence.key = key := by
  constructor
  · exact get?_mem
  · rintro ⟨hmem, hkey⟩
    cases hfound : assembler.get? key with
    | none => exact absurd hkey (get?_eq_none_iff.1 hfound sequence hmem)
    | some found =>
      obtain ⟨hfoundmem, hfoundkey⟩ := get?_mem hfound
      rw [h.eq_of_key_eq hfoundmem hmem (hfoundkey.trans hkey.symm)]

theorem ensureOpen_of_open {assembler : Assembler κ} {key : κ} {sequence : FragmentSequence κ}
    (h : assembler.get? key = some sequence) (time : Timestamp) :
    assembler.ensureOpen key time = (assembler, []) := by
  rw [ensureOpen, h]

theorem ensureOpen_of_closed {assembler : Assembler κ} {key : κ} (h : assembler.get? key = none)
    (time : Timestamp) : assembler.ensureOpen key time = assembler.openSequence key time := by
  rw [ensureOpen, h]

theorem sequences_openSequence (assembler : Assembler κ) (key : κ) (time : Timestamp) :
    (assembler.openSequence key time).1.sequences =
      Idle.place (.start key time assembler.opened) assembler.makeRoom.1.sequences := by
  simp [openSequence]

theorem events_openSequence (assembler : Assembler κ) (key : κ) (time : Timestamp) :
    (assembler.openSequence key time).2 =
      assembler.makeRoom.2 ++ [.sequenceStart key time] := rfl

@[simp] theorem config_ensureOpen (assembler : Assembler κ) (key : κ) (time : Timestamp) :
    (assembler.ensureOpen key time).1.config = assembler.config := by
  unfold ensureOpen
  split
  · rfl
  · simp [openSequence]

@[simp] theorem now_ensureOpen (assembler : Assembler κ) (key : κ) (time : Timestamp) :
    (assembler.ensureOpen key time).1.now = assembler.now := by
  unfold ensureOpen
  split
  · rfl
  · exact now_makeRoom assembler

theorem get?_ensureOpen (assembler : Assembler κ) (key : κ) (time : Timestamp) :
    (assembler.ensureOpen key time).1.get? key =
      some ((assembler.get? key).getD (.start key time assembler.opened)) := by
  cases h : assembler.get? key with
  | some sequence => rw [ensureOpen_of_open h, h, Option.getD_some]
  | none =>
    have hothers : ∀ other ∈ assembler.makeRoom.1.sequences, other.key ≠ key := by
      intro other hother
      exact get?_eq_none_iff.1 h other (assembler.sequences_makeRoom_sublist.mem hother)
    rw [ensureOpen_of_closed h, Option.getD_none, get?, sequences_openSequence]
    generalize assembler.makeRoom.1.sequences = others at hothers
    induction others with
    | nil => simp [Idle.place, FragmentSequence.start]
    | cons other rest ih =>
      unfold Idle.place
      split
      · simp [FragmentSequence.start]
      · rw [List.find?_cons_of_neg (by simpa using hothers other List.mem_cons_self)]
        exact ih (fun x hx => hothers x (List.mem_cons_of_mem _ hx))

theorem mem_sequences_ensureOpen {assembler : Assembler κ} {key : κ} {time : Timestamp}
    {sequence : FragmentSequence κ}
    (h : sequence ∈ (assembler.ensureOpen key time).1.sequences) :
    sequence ∈ assembler.sequences ∨
      assembler.get? key = none ∧ sequence = .start key time assembler.opened := by
  cases hopen : assembler.get? key with
  | some found =>
    rw [ensureOpen_of_open hopen] at h
    exact .inl h
  | none =>
    rw [ensureOpen_of_closed hopen, sequences_openSequence, Idle.mem_place] at h
    rcases h with rfl | hmem
    · exact .inr ⟨rfl, rfl⟩
    · exact .inl (assembler.sequences_makeRoom_sublist.mem hmem)

/-- Opening a sequence may time out the sequence of another key. -/
theorem events_ensureOpen {assembler : Assembler κ} {key : κ} {time : Timestamp}
    {event : AssemblyEvent κ} (h : event ∈ (assembler.ensureOpen key time).2) :
    (∃ sequence, sequence.key ≠ key ∧ event = .timeout sequence) ∨
      event = .sequenceStart key time := by
  cases hopen : assembler.get? key with
  | some found =>
    rw [ensureOpen_of_open hopen] at h
    cases h
  | none =>
    rw [ensureOpen_of_closed hopen, events_openSequence, List.mem_append] at h
    rcases h with h | h
    · obtain ⟨sequence, hmem, rfl⟩ := assembler.events_makeRoom event h
      exact .inl ⟨{ sequence with status := .timedOut },
        get?_eq_none_iff.1 hopen sequence hmem, rfl⟩
    · exact .inr (List.mem_singleton.1 h)

theorem DistinctKeys.ensureOpen {assembler : Assembler κ} (h : assembler.DistinctKeys) (key : κ)
    (time : Timestamp) : (assembler.ensureOpen key time).1.DistinctKeys := by
  cases hopen : assembler.get? key with
  | some found =>
    rw [ensureOpen_of_open hopen]
    exact h
  | none =>
    rw [ensureOpen_of_closed hopen]
    refine distinctKeys_of_place (sequences_openSequence assembler key time)
      (h.sublist assembler.sequences_makeRoom_sublist) ?_
    intro other hother
    exact get?_eq_none_iff.1 hopen other (assembler.sequences_makeRoom_sublist.mem hother)

def others (assembler : Assembler κ) (key : κ) : List (FragmentSequence κ) :=
  assembler.sequences.filter (fun other => other.key ≠ key)

theorem mem_others {assembler : Assembler κ} {key : κ} {other : FragmentSequence κ} :
    other ∈ assembler.others key ↔ other ∈ assembler.sequences ∧ other.key ≠ key := by
  simp [others]

section Add

variable {assembler : Assembler κ} {key : κ} {fragment : Fragment} {sequence : FragmentSequence κ}
  (hopen : assembler.get? key = some sequence)

include hopen

theorem addFragment_of_retains (hretains : sequence.retains fragment = true) :
    (assembler.addFragment key fragment).1.sequences = assembler.sequences ∧
      (assembler.addFragment key fragment).2 = [] := by
  simp [addFragment, hopen, FragmentSequence.place_of_retains hretains]

theorem addFragment_of_covered (hretains : sequence.retains fragment = false)
    (hcovered : (sequence.extended fragment).IsCovered) :
    (assembler.addFragment key fragment).1.sequences = assembler.others key ∧
      (assembler.addFragment key fragment).2 =
        [.newFragment key fragment.offset fragment.length,
          .complete { sequence.extended fragment with status := .complete }] := by
  have hkey : (sequence.extended fragment).key = key := (get?_mem hopen).2
  simp [addFragment, hopen, FragmentSequence.place_of_not_retains hretains, settle, hcovered,
    hkey, others]

theorem addFragment_of_not_covered (hretains : sequence.retains fragment = false)
    (hcovered : ¬ (sequence.extended fragment).IsCovered) :
    (assembler.addFragment key fragment).1.sequences =
        Idle.place (sequence.extended fragment) (assembler.others key) ∧
      (assembler.addFragment key fragment).2 =
        [.newFragment key fragment.offset fragment.length] := by
  have hkey : (sequence.extended fragment).key = key := (get?_mem hopen).2
  simp [addFragment, hopen, FragmentSequence.place_of_not_retains hretains, settle, hcovered,
    hkey, others]

/-- A fragment is reported as new, and then perhaps its sequence as complete. -/
theorem events_addFragment :
    (assembler.addFragment key fragment).2 =
      if sequence.retains fragment then []
      else .newFragment key fragment.offset fragment.length ::
        if (sequence.extended fragment).IsCovered then
          [.complete { sequence.extended fragment with status := .complete }]
        else [] := by
  cases hretains : sequence.retains fragment with
  | true => exact (addFragment_of_retains hopen hretains).2
  | false =>
    by_cases hcovered : (sequence.extended fragment).IsCovered
    · rw [(addFragment_of_covered hopen hretains hcovered).2, if_pos hcovered]
      rfl
    · rw [(addFragment_of_not_covered hopen hretains hcovered).2, if_neg hcovered]
      rfl

end Add

theorem settle_frame (assembler : Assembler κ) (sequence : FragmentSequence κ) :
    (assembler.settle sequence).1.config = assembler.config ∧
      (assembler.settle sequence).1.now = assembler.now := by
  unfold settle close
  simp only
  split <;> exact ⟨rfl, rfl⟩

theorem addFragment_frame (assembler : Assembler κ) (key : κ) (fragment : Fragment) :
    (assembler.addFragment key fragment).1.config = assembler.config ∧
      (assembler.addFragment key fragment).1.now = assembler.now := by
  unfold addFragment
  split
  · exact ⟨rfl, rfl⟩
  · split
    · exact ⟨rfl, rfl⟩
    · exact settle_frame _ _

theorem DistinctKeys.addFragment {assembler : Assembler κ} (h : assembler.DistinctKeys) {key : κ}
    {sequence : FragmentSequence κ} (hopen : assembler.get? key = some sequence)
    (fragment : Fragment) : (assembler.addFragment key fragment).1.DistinctKeys := by
  have hothers : (assembler.others key).Pairwise (fun a b => a.key ≠ b.key) := h.filter _
  cases hretains : sequence.retains fragment with
  | true =>
    unfold DistinctKeys
    rw [(addFragment_of_retains hopen hretains).1]
    exact h
  | false =>
    by_cases hcovered : (sequence.extended fragment).IsCovered
    · unfold DistinctKeys
      rw [(addFragment_of_covered hopen hretains hcovered).1]
      exact hothers
    · refine distinctKeys_of_place (addFragment_of_not_covered hopen hretains hcovered).1 hothers ?_
      intro other hother
      have hkey : (sequence.extended fragment).key = key := (get?_mem hopen).2
      rw [hkey]
      exact (mem_others.1 hother).2

/-- A sequence that is not covered stays open. -/
theorem get?_addFragment {assembler : Assembler κ} (h : assembler.DistinctKeys) {key : κ}
    {fragment : Fragment} {sequence : FragmentSequence κ}
    (hopen : assembler.get? key = some sequence)
    (hcovered : sequence.retains fragment = false → ¬ (sequence.extended fragment).IsCovered) :
    (assembler.addFragment key fragment).1.get? key =
      some (if sequence.retains fragment then sequence else sequence.extended fragment) := by
  cases hretains : sequence.retains fragment with
  | true =>
    rw [get?, (addFragment_of_retains hopen hretains).1]
    exact hopen
  | false =>
    rw [(h.addFragment hopen fragment).get?_eq_some_iff,
      (addFragment_of_not_covered hopen hretains (hcovered hretains)).1, Idle.mem_place]
    exact ⟨.inl rfl, (get?_mem hopen).2⟩

/-- The assembler to which an insertion adds its fragment: the clock has moved, and the key has an
open sequence. -/
def ready (assembler : Assembler κ) (key : κ) (time : Timestamp) : Assembler κ :=
  ((assembler.advance time).1.ensureOpen key time).1

/-- The events of an insertion before its fragment is added. -/
def opening (assembler : Assembler κ) (key : κ) (time : Timestamp) : List (AssemblyEvent κ) :=
  (assembler.advance time).2 ++ ((assembler.advance time).1.ensureOpen key time).2

theorem insert_eq (assembler : Assembler κ) (key : κ) (fragment : Fragment) :
    assembler.insert key fragment =
      (((assembler.ready key fragment.timestamp).addFragment key
          (assembler.config.stored fragment)).1,
        assembler.opening key fragment.timestamp ++
          ((assembler.ready key fragment.timestamp).addFragment key
            (assembler.config.stored fragment)).2) := rfl

/-- The sequence to which an insertion adds its fragment. -/
def target (assembler : Assembler κ) (key : κ) (time : Timestamp) : FragmentSequence κ :=
  ((assembler.advance time).1.get? key).getD
    (.start key time (assembler.advance time).1.opened)

theorem get?_ready (assembler : Assembler κ) (key : κ) (time : Timestamp) :
    (assembler.ready key time).get? key = some (assembler.target key time) :=
  get?_ensureOpen _ key time

/-- Whether the target retains the range of the fragment already. -/
def repeats (assembler : Assembler κ) (key : κ) (fragment : Fragment) : Bool :=
  (assembler.target key fragment.timestamp).retains (assembler.config.stored fragment)

/-- A target that retains a fragment was open before. -/
theorem exists_open_of_repeats {assembler : Assembler κ} {key : κ} {fragment : Fragment}
    (h : assembler.repeats key fragment = true) :
    (assembler.advance fragment.timestamp).1.get? key =
      some (assembler.target key fragment.timestamp) := by
  cases hopen : (assembler.advance fragment.timestamp).1.get? key with
  | none =>
    rw [repeats, target, hopen] at h
    cases h
  | some sequence => rw [target, hopen, Option.getD_some]

def grown (assembler : Assembler κ) (key : κ) (fragment : Fragment) : FragmentSequence κ :=
  (assembler.target key fragment.timestamp).extended (assembler.config.stored fragment)

@[simp] theorem key_target (assembler : Assembler κ) (key : κ) (time : Timestamp) :
    (assembler.target key time).key = key :=
  (get?_mem (assembler.get?_ready key time)).2

@[simp] theorem key_grown (assembler : Assembler κ) (key : κ) (fragment : Fragment) :
    (assembler.grown key fragment).key = key :=
  assembler.key_target key fragment.timestamp

def reported (assembler : Assembler κ) (key : κ) (fragment : Fragment) : List (AssemblyEvent κ) :=
  if assembler.repeats key fragment then []
  else .newFragment key fragment.offset fragment.length ::
    if (assembler.grown key fragment).IsCovered then
      [.complete { assembler.grown key fragment with status := .complete }]
    else []

theorem reported_of_repeats {assembler : Assembler κ} {key : κ} {fragment : Fragment}
    (h : assembler.repeats key fragment = true) : assembler.reported key fragment = [] := by
  simp [reported, h]

theorem reported_of_covered {assembler : Assembler κ} {key : κ} {fragment : Fragment}
    (hrepeats : assembler.repeats key fragment = false)
    (hcovered : (assembler.grown key fragment).IsCovered) :
    assembler.reported key fragment =
      [.newFragment key fragment.offset fragment.length,
        .complete { assembler.grown key fragment with status := .complete }] := by
  simp [reported, hrepeats, hcovered]

theorem reported_of_not_covered {assembler : Assembler κ} {key : κ} {fragment : Fragment}
    (hrepeats : assembler.repeats key fragment = false)
    (hcovered : ¬ (assembler.grown key fragment).IsCovered) :
    assembler.reported key fragment = [.newFragment key fragment.offset fragment.length] := by
  simp [reported, hrepeats, hcovered]

theorem key_of_reported {assembler : Assembler κ} {key : κ} {fragment : Fragment} :
    ∀ event ∈ assembler.reported key fragment, event.key = key := by
  intro event hevent
  unfold reported at hevent
  split at hevent
  · cases hevent
  · rcases List.mem_cons.1 hevent with rfl | hevent
    · rfl
    · split at hevent
      · rw [List.mem_singleton.1 hevent]
        exact assembler.key_grown key fragment
      · cases hevent

theorem events_insert (assembler : Assembler κ) (key : κ) (fragment : Fragment) :
    (assembler.insert key fragment).2 =
      assembler.opening key fragment.timestamp ++ assembler.reported key fragment := by
  obtain ⟨hoffset, hlength⟩ := assembler.config.stored_sameRange fragment
  rw [insert_eq, events_addFragment (assembler.get?_ready key fragment.timestamp), hoffset,
    hlength]
  rfl

@[simp] theorem config_ready (assembler : Assembler κ) (key : κ) (time : Timestamp) :
    (assembler.ready key time).config = assembler.config := by
  rw [ready, config_ensureOpen, config_advance]

@[simp] theorem now_ready (assembler : Assembler κ) (key : κ) (time : Timestamp) :
    (assembler.ready key time).now = max assembler.now time := by
  rw [ready, now_ensureOpen, now_advance]

theorem DistinctKeys.ready {assembler : Assembler κ} (h : assembler.DistinctKeys) (key : κ)
    (time : Timestamp) : (assembler.ready key time).DistinctKeys :=
  DistinctKeys.ensureOpen (h.sublist (assembler.sequences_advance_sublist time)) key time

@[simp] theorem config_insert (assembler : Assembler κ) (key : κ) (fragment : Fragment) :
    (assembler.insert key fragment).1.config = assembler.config := by
  rw [insert_eq, (addFragment_frame _ key _).1, config_ready]

@[simp] theorem now_insert (assembler : Assembler κ) (key : κ) (fragment : Fragment) :
    (assembler.insert key fragment).1.now = max assembler.now fragment.timestamp := by
  rw [insert_eq, (addFragment_frame _ key _).2, now_ready]

/-- A sequence that is not covered stays open. -/
theorem get?_insert {assembler : Assembler κ} (h : assembler.DistinctKeys) {key : κ}
    {fragment : Fragment}
    (huncovered : assembler.repeats key fragment = false →
      ¬ (assembler.grown key fragment).IsCovered) :
    (assembler.insert key fragment).1.get? key =
      some (if assembler.repeats key fragment then assembler.target key fragment.timestamp
        else assembler.grown key fragment) :=
  get?_addFragment (h.ready key fragment.timestamp)
    (assembler.get?_ready key fragment.timestamp) huncovered

theorem get?_insert_of_covered {assembler : Assembler κ} {key : κ} {fragment : Fragment}
    (hrepeats : assembler.repeats key fragment = false)
    (hcovered : (assembler.grown key fragment).IsCovered) :
    (assembler.insert key fragment).1.get? key = none := by
  have hopen := assembler.get?_ready key fragment.timestamp
  rw [insert_eq, get?_eq_none_iff, (addFragment_of_covered hopen hrepeats hcovered).1]
  intro sequence hsequence
  exact (mem_others.1 hsequence).2

/-- An insertion touches the sequence of its key alone. All others were left open by the sweep. -/
theorem mem_advanced_of_insert {assembler : Assembler κ} (hdistinct : assembler.DistinctKeys)
    {key : κ} {fragment : Fragment} {sequence : FragmentSequence κ}
    (h : sequence ∈ (assembler.insert key fragment).1.sequences) :
    sequence ∈ (assembler.advance fragment.timestamp).1.sequences ∧ sequence.key ≠ key ∨
      assembler.repeats key fragment = true ∧
        sequence = assembler.target key fragment.timestamp ∨
      assembler.repeats key fragment = false ∧ sequence = assembler.grown key fragment := by
  have hopen := assembler.get?_ready key fragment.timestamp
  -- a sequence of another key was open before the insertion
  have hother (hmem : sequence ∈ (assembler.ready key fragment.timestamp).sequences)
      (hkey : sequence.key ≠ key) :
      sequence ∈ (assembler.advance fragment.timestamp).1.sequences := by
    rcases mem_sequences_ensureOpen hmem with hmem | ⟨_, rfl⟩
    · exact hmem
    · exact absurd rfl hkey
  rw [insert_eq] at h
  cases hrepeats : assembler.repeats key fragment with
  | true =>
    rw [(addFragment_of_retains hopen hrepeats).1] at h
    by_cases hkey : sequence.key = key
    · have htarget := (hdistinct.ready key fragment.timestamp).get?_eq_some_iff.2 ⟨h, hkey⟩
      rw [hopen] at htarget
      exact .inr (.inl ⟨rfl, (Option.some.inj htarget).symm⟩)
    · exact .inl ⟨hother h hkey, hkey⟩
  | false =>
    have hkept : sequence = assembler.grown key fragment ∨
        sequence ∈ (assembler.ready key fragment.timestamp).others key := by
      by_cases hcovered : (assembler.grown key fragment).IsCovered
      · rw [(addFragment_of_covered hopen hrepeats hcovered).1] at h
        exact .inr h
      · rw [(addFragment_of_not_covered hopen hrepeats hcovered).1, Idle.mem_place] at h
        exact h
    rcases hkept with heq | hmem
    · exact .inr (.inr ⟨rfl, heq⟩)
    · obtain ⟨hmem, hkey⟩ := mem_others.1 hmem
      exact .inl ⟨hother hmem hkey, hkey⟩

theorem mem_sequences_insert {assembler : Assembler κ} (hdistinct : assembler.DistinctKeys)
    {key : κ} {fragment : Fragment} {sequence : FragmentSequence κ}
    (h : sequence ∈ (assembler.insert key fragment).1.sequences) :
    sequence ∈ assembler.sequences ∧ sequence.key ≠ key ∨
      assembler.repeats key fragment = true ∧
        sequence = assembler.target key fragment.timestamp ∨
      assembler.repeats key fragment = false ∧ sequence = assembler.grown key fragment :=
  (mem_advanced_of_insert hdistinct h).imp_left fun ⟨hmem, hkey⟩ =>
    ⟨(assembler.sequences_advance_sublist fragment.timestamp).mem hmem, hkey⟩

end Assembler

end Dissection
