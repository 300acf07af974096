import Dissection.Proofs.Reassembly.Run

/-!
# The order of time

An assembler keeps its open sequences, and the ends that it remembers, in the order of time. What
has expired is therefore in front, and a sweep that stops at the first thing recent enough misses
nothing: it takes exactly what has expired, whatever else is under way.
-/

namespace Dissection

/-- Of ends in the order of time, those that are too long ago stand in front. -/
theorem dropWhile_isExpired {κ : Type} {closings : List (Closing κ)}
    (h : closings.Pairwise (fun a b => a.time ≤ b.time)) (now : Timestamp) (window : Duration) :
    closings.dropWhile (fun closing => isExpired now closing.time window) =
      closings.filter (fun closing => !isExpired now closing.time window) :=
  dropWhile_eq_filter (h.imp (fun hle => isExpired_of_le hle))

namespace Assembler

variable {κ : Type}

/-- No two sequences belong to one key, and sequences and ends are in the order of time. -/
structure Regular (assembler : Assembler κ) : Prop where
  distinct : assembler.DistinctKeys
  sorted : Idle.Sorted assembler.sequences
  closings_sorted : assembler.closings.Pairwise (fun a b => a.time ≤ b.time)
  closed_by_now : ∀ closing ∈ assembler.closings, closing.time ≤ assembler.now

theorem regular_ofConfig (config : AssemblyConfig) : (ofConfig config : Assembler κ).Regular where
  distinct := distinctKeys_ofConfig config
  sorted := .nil
  closings_sorted := .nil
  closed_by_now _ h := nomatch h

variable {assembler : Assembler κ}

/-- Ends are noted at the present time, behind all others. -/
theorem Regular.close (h : assembler.Regular) (ended : List (FragmentSequence κ)) :
    (assembler.close ended).closings.Pairwise (fun a b => a.time ≤ b.time) ∧
      ∀ closing ∈ (assembler.close ended).closings, closing.time ≤ assembler.now := by
  have hnew : ∀ closing ∈ ended.map (fun sequence => Closing.mk assembler.now sequence.key),
      closing.time = assembler.now := by simp
  constructor
  · refine List.pairwise_append.2 ⟨h.closings_sorted, ?_, ?_⟩
    · rw [List.pairwise_map]
      exact List.pairwise_of_forall (fun _ _ => Nat.le_refl _)
    · intro earlier hearlier later hlater
      rw [hnew later hlater]
      exact h.closed_by_now earlier hearlier
  · intro closing hclosing
    rcases List.mem_append.1 hclosing with hmem | hmem
    · exact h.closed_by_now closing hmem
    · exact Nat.le_of_eq (congrArg Timestamp.micros (hnew closing hmem))

theorem Regular.timeOut (h : assembler.Regular) (ended : List (FragmentSequence κ))
    {kept : List (FragmentSequence κ)} (hkept : kept.Sublist assembler.sequences) :
    (assembler.timeOut ended kept).1.Regular where
  distinct := h.distinct.sublist hkept
  sorted := h.sorted.sublist hkept
  closings_sorted := (h.close ended).1
  closed_by_now := (h.close ended).2

theorem Regular.advance (h : assembler.Regular) (time : Timestamp) :
    (assembler.advance time).1.Regular := by
  have hforgotten := List.dropWhile_sublist (l := assembler.closings)
    (fun closing => isExpired (max assembler.now time) closing.time assembler.config.window)
  have hlater : assembler.now ≤ max assembler.now time := Timestamp.le_max_left _ _
  let observed : Assembler κ := { assembler with
    clock := assembler.clock.observe time
    closings := assembler.closings.dropWhile
      (fun closing => isExpired (max assembler.now time) closing.time assembler.config.window) }
  have hobserved : observed.Regular := {
    distinct := h.distinct
    sorted := h.sorted
    closings_sorted := h.closings_sorted.sublist hforgotten
    closed_by_now := fun closing hclosing =>
      Nat.le_trans (h.closed_by_now closing (hforgotten.mem hclosing)) hlater }
  exact hobserved.timeOut _ (List.dropWhile_sublist _)

theorem Regular.flush (h : assembler.Regular) : assembler.flush.1.Regular :=
  h.timeOut _ (List.nil_sublist _)

theorem Regular.makeRoom (h : assembler.Regular) : assembler.makeRoom.1.Regular := by
  rcases assembler.makeRoom_cases with ⟨_, heq⟩ | ⟨_, first, rest, hsequences, heq⟩
  · rw [heq]
    exact h
  · let counted : Assembler κ :=
      { assembler with stats := { assembler.stats with evicted := assembler.stats.evicted + 1 } }
    have hcounted : counted.Regular :=
      ⟨h.distinct, h.sorted, h.closings_sorted, h.closed_by_now⟩
    have hkept : rest.Sublist counted.sequences := by
      change rest.Sublist assembler.sequences
      rw [hsequences]
      exact List.sublist_cons_self first rest
    rw [heq]
    exact hcounted.timeOut [first] hkept

variable [DecidableEq κ]

theorem Regular.ensureOpen (h : assembler.Regular) (key : κ) (time : Timestamp) :
    (assembler.ensureOpen key time).1.Regular := by
  have hdistinct := h.distinct.ensureOpen key time
  cases hopen : assembler.get? key with
  | some sequence =>
    rw [ensureOpen_of_open hopen]
    exact h
  | none =>
    rw [ensureOpen_of_closed hopen] at hdistinct ⊢
    have hroomy := h.makeRoom
    have hkept := List.filter_sublist (l := assembler.makeRoom.1.closings)
      (p := fun closing => closing.key ≠ key)
    exact {
      distinct := hdistinct
      sorted := hroomy.sorted.place
      closings_sorted := hroomy.closings_sorted.sublist hkept
      closed_by_now := fun closing hclosing =>
        hroomy.closed_by_now closing (hkept.mem hclosing) }

theorem Regular.settle (h : assembler.Regular) {sequence : FragmentSequence κ}
    (hdistinct : (assembler.settle sequence).1.DistinctKeys) :
    (assembler.settle sequence).1.Regular := by
  have hothers : Idle.Sorted
      (assembler.sequences.filter (fun other => other.key ≠ sequence.key)) :=
    h.sorted.sublist List.filter_sublist
  by_cases hcovered : sequence.IsCovered
  · rw [Assembler.settle, if_pos hcovered] at hdistinct ⊢
    exact ⟨hdistinct, hothers, (h.close [sequence]).1, (h.close [sequence]).2⟩
  · rw [Assembler.settle, if_neg hcovered] at hdistinct ⊢
    exact ⟨hdistinct, hothers.place, h.closings_sorted, h.closed_by_now⟩

theorem Regular.addFragment (h : assembler.Regular) {key : κ} {sequence : FragmentSequence κ}
    (hopen : assembler.get? key = some sequence) (fragment : Fragment) :
    (assembler.addFragment key fragment).1.Regular := by
  have hdistinct := h.distinct.addFragment hopen fragment
  cases hretains : sequence.retains fragment with
  | true =>
    simp only [Assembler.addFragment, hopen, FragmentSequence.place_of_retains hretains]
    exact ⟨h.distinct, h.sorted, h.closings_sorted, h.closed_by_now⟩
  | false =>
    simp only [Assembler.addFragment, hopen, FragmentSequence.place_of_not_retains hretains]
      at hdistinct ⊢
    refine Regular.settle ?_ hdistinct
    exact ⟨h.distinct, h.sorted, h.closings_sorted, h.closed_by_now⟩

theorem Regular.apply (h : assembler.Regular) (operation : AssemblyOperation κ) :
    (assembler.apply operation).1.Regular := by
  cases operation with
  | insert key fragment =>
    exact ((h.advance fragment.timestamp).ensureOpen key fragment.timestamp).addFragment
      (assembler.get?_ready key fragment.timestamp) _
  | advance time => exact h.advance time
  | flush => exact h.flush

theorem regular_after (config : AssemblyConfig) (operations : List (AssemblyOperation κ)) :
    ((ofConfig config).after operations).Regular :=
  run_induction (motive := fun current _ => current.Regular) (ofConfig config)
    (regular_ofConfig config) (fun _ _ operation h => h.apply operation) operations

omit [DecidableEq κ] in
/-- A sweep leaves nothing open that is overdue. -/
theorem Regular.current_advance (h : assembler.Regular) (time : Timestamp)
    {sequence : FragmentSequence κ} (hsequence : sequence ∈ (assembler.advance time).1.sequences) :
    Idle.isOverdue (max assembler.now time) assembler.config.window sequence = false := by
  change sequence ∈ Idle.current _ _ assembler.sequences at hsequence
  rw [h.sorted.current_eq_filter] at hsequence
  exact Bool.eq_false_of_not_eq_true' (List.mem_filter.1 hsequence).2

theorem timestamp_stored (config : AssemblyConfig) (fragment : Fragment) :
    (config.stored fragment).timestamp = fragment.timestamp := by
  unfold AssemblyConfig.stored
  split <;> rfl

/-- An insertion leaves nothing open that is overdue, unless it opens a sequence with a fragment
that is as old. -/
theorem Regular.current_insert (h : assembler.Regular) {key : κ} {fragment : Fragment}
    {sequence : FragmentSequence κ}
    (hsequence : sequence ∈ (assembler.insert key fragment).1.sequences) :
    Idle.isOverdue (max assembler.now fragment.timestamp) assembler.config.window sequence =
        false ∨
      .sequenceStart sequence.key fragment.timestamp ∈ (assembler.insert key fragment).2 ∧
        sequence.firstFragmentAt = fragment.timestamp ∧
        sequence.lastFragmentAt = fragment.timestamp := by
  -- the target was left open by the sweep, or it is new
  have htarget :
      Idle.isOverdue (max assembler.now fragment.timestamp) assembler.config.window
          (assembler.target key fragment.timestamp) = false ∨
        (assembler.advance fragment.timestamp).1.get? key = none := by
    rw [target]
    cases hopen : (assembler.advance fragment.timestamp).1.get? key with
    | some found => exact .inl (h.current_advance _ (get?_mem hopen).1)
    | none => exact .inr rfl
  have hstart (hnew : (assembler.advance fragment.timestamp).1.get? key = none) :
      .sequenceStart key fragment.timestamp ∈ (assembler.insert key fragment).2 := by
    rw [events_insert, opening, ensureOpen_of_closed hnew, events_openSequence]
    simp
  rcases mem_advanced_of_insert h.distinct hsequence with ⟨hmem, _⟩ | ⟨_, rfl⟩ | ⟨_, rfl⟩
  · exact .inl (h.current_advance _ hmem)
  · refine htarget.imp_right ?_
    intro hnew
    rw [key_target]
    refine ⟨hstart hnew, ?_⟩
    rw [target, hnew]
    exact ⟨rfl, rfl⟩
  · rcases htarget with hcurrent | hnew
    · left
      rw [Bool.eq_false_iff] at hcurrent ⊢
      refine fun hoverdue => hcurrent (isExpired_of_le ?_ hoverdue)
      exact Timestamp.le_max_left _ _
    · right
      rw [key_grown]
      refine ⟨hstart hnew, ?_⟩
      rw [grown, target, hnew]
      refine ⟨rfl, ?_⟩
      change max fragment.timestamp (assembler.config.stored fragment).timestamp = _
      rw [timestamp_stored, Timestamp.max_self]

end Assembler

end Dissection
