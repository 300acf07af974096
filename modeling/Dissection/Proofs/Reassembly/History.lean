import Dissection.Proofs.Reassembly.Run

/-!
# The history of a key

The events of one key tell its sequences one after the other: each starts, reports its fragments,
and is completed or times out before the next one starts. The last one may go on, and then it is
the open sequence of the key. A sequence holds the fragments that were reported of it, each once,
and no range of bytes twice. A fragment is reported unless its range is held already.
-/

namespace Dissection

variable {κ : Type}

/-- The bytes of the datagram that a fragment stands for: their offset and their number. -/
def Fragment.range (fragment : Fragment) : Nat × Nat := (fragment.offset, fragment.length)

theorem AssemblyConfig.range_stored (config : AssemblyConfig) (fragment : Fragment) :
    (config.stored fragment).range = fragment.range := by
  obtain ⟨hoffset, hlength⟩ := config.stored_sameRange fragment
  rw [Fragment.range, Fragment.range, hoffset, hlength]

namespace FragmentSequence

/-- The ranges of the fragments that the sequence retains, in order. -/
def ranges (sequence : FragmentSequence κ) : List (Nat × Nat) :=
  sequence.fragments.map Fragment.range

theorem retains_iff_range {sequence : FragmentSequence κ} {fragment : Fragment} :
    sequence.retains fragment = true ↔ fragment.range ∈ sequence.ranges := by
  rw [retains_iff, ranges, List.mem_map]
  refine exists_congr (fun other => and_congr_right (fun _ => ?_))
  rw [Fragment.SameRange, Fragment.range, Fragment.range, Prod.mk.injEq]

theorem perm_ranges_extended (sequence : FragmentSequence κ) (fragment : Fragment) :
    (sequence.extended fragment).ranges.Perm (fragment.range :: sequence.ranges) :=
  (Fragment.perm_place fragment sequence.fragments).map Fragment.range

/-- The sequence of the key holds one fragment for each of the given ranges. There are some, and
none is given twice. -/
structure Holds (sequence : FragmentSequence κ) (key : κ) (ranges : List (Nat × Nat)) : Prop where
  key_eq : sequence.key = key
  ne_nil : ranges ≠ []
  nodup : ranges.Nodup
  perm : sequence.ranges.Perm ranges

/-- The sequence holds one range more with a fragment of a range that it does not hold. -/
theorem Holds.extended {sequence : FragmentSequence κ} {key : κ} {ranges : List (Nat × Nat)}
    (h : sequence.Holds key ranges) {fragment : Fragment}
    (hnew : sequence.retains fragment = false) :
    (sequence.extended fragment).Holds key (ranges ++ [fragment.range]) where
  key_eq := h.key_eq
  ne_nil := by simp
  nodup := by
    have hfresh : fragment.range ∉ ranges := by
      rw [← h.perm.mem_iff, ← retains_iff_range, hnew]
      exact Bool.false_ne_true
    exact (List.perm_append_singleton _ _).nodup_iff.2 (List.nodup_cons.2 ⟨hfresh, h.nodup⟩)
  perm := (sequence.perm_ranges_extended fragment).trans
    ((h.perm.cons _).trans (List.perm_append_singleton _ _).symm)

theorem Holds.ended {sequence : FragmentSequence κ} {key : κ} {ranges : List (Nat × Nat)}
    (h : sequence.Holds key ranges) (status : SequenceStatus) :
    { sequence with status := status }.Holds key ranges :=
  ⟨h.key_eq, h.ne_nil, h.nodup, h.perm⟩

end FragmentSequence

namespace AssemblyEvent

/-- The events of a sequence that goes on: its start, and one for each of its fragments. -/
def progress (key : κ) (time : Timestamp) (ranges : List (Nat × Nat)) : List (AssemblyEvent κ) :=
  .sequenceStart key time :: ranges.map (fun range => .newFragment key range.1 range.2)

/-- The events of a sequence of the key from its start to its end. -/
inductive Lifetime (key : κ) : List (AssemblyEvent κ) → Prop where
  | completed (time : Timestamp) {ranges : List (Nat × Nat)} {sequence : FragmentSequence κ}
      (hholds : sequence.Holds key ranges) :
      Lifetime key (progress key time ranges ++ [.complete sequence])
  | timedOut (time : Timestamp) {ranges : List (Nat × Nat)} {sequence : FragmentSequence κ}
      (hholds : sequence.Holds key ranges) :
      Lifetime key (progress key time ranges ++ [.timeout sequence])

/-- All events of a key with the given open sequence, if any. -/
inductive History (key : κ) : Option (FragmentSequence κ) → List (AssemblyEvent κ) → Prop where
  | closed {lifetimes : List (List (AssemblyEvent κ))}
      (hlifetimes : ∀ events ∈ lifetimes, Lifetime key events) :
      History key none lifetimes.flatten
  | going {lifetimes : List (List (AssemblyEvent κ))}
      (hlifetimes : ∀ events ∈ lifetimes, Lifetime key events) (time : Timestamp)
      {ranges : List (Nat × Nat)} {sequence : FragmentSequence κ}
      (hholds : sequence.Holds key ranges) :
      History key (some sequence) (lifetimes.flatten ++ progress key time ranges)

def isNewFragment : AssemblyEvent κ → Bool
  | .newFragment _ _ _ => true
  | _ => false

section History

variable {key : κ} {sequence : FragmentSequence κ} {events : List (AssemblyEvent κ)}

theorem History.start (h : History key none events) (time : Timestamp)
    {ranges : List (Nat × Nat)} (hholds : sequence.Holds key ranges) :
    History key (some sequence) (events ++ progress key time ranges) := by
  cases h with
  | closed hlifetimes => exact .going hlifetimes time hholds

theorem History.extend (h : History key (some sequence) events) {fragment : Fragment}
    (hnew : sequence.retains fragment = false) :
    History key (some (sequence.extended fragment))
      (events ++ [.newFragment key fragment.offset fragment.length]) := by
  cases h with
  | going hlifetimes time hholds =>
    have hgoing := History.going hlifetimes time (hholds.extended hnew)
    simpa [progress, Fragment.range] using hgoing

theorem closed_append {lifetimes : List (List (AssemblyEvent κ))}
    (hlifetimes : ∀ events ∈ lifetimes, Lifetime key events) (hlast : Lifetime key events) :
    History key none (lifetimes.flatten ++ events) := by
  have hall : ∀ life ∈ lifetimes ++ [events], Lifetime key life := by
    intro life hlife
    rcases List.mem_append.1 hlife with hmem | hmem
    · exact hlifetimes life hmem
    · rw [List.mem_singleton.1 hmem]
      exact hlast
  simpa using History.closed hall

theorem History.complete (h : History key (some sequence) events) :
    History key none (events ++ [.complete { sequence with status := .complete }]) := by
  cases h with
  | going hlifetimes time hholds =>
    rw [List.append_assoc]
    exact closed_append hlifetimes (.completed time (hholds.ended .complete))

theorem History.timeout (h : History key (some sequence) events) :
    History key none (events ++ [.timeout { sequence with status := .timedOut }]) := by
  cases h with
  | going hlifetimes time hholds =>
    rw [List.append_assoc]
    exact closed_append hlifetimes (.timedOut time (hholds.ended .timedOut))

end History

variable [DecidableEq κ]

def ofKey (key : κ) (events : List (AssemblyEvent κ)) : List (AssemblyEvent κ) :=
  events.filter (·.key = key)

@[simp] theorem ofKey_nil (key : κ) : ofKey key [] = [] := rfl

@[simp] theorem ofKey_append (key : κ) (events more : List (AssemblyEvent κ)) :
    ofKey key (events ++ more) = ofKey key events ++ ofKey key more := List.filter_append ..

theorem ofKey_eq_nil {key : κ} {events : List (AssemblyEvent κ)}
    (h : ∀ event ∈ events, event.key ≠ key) : ofKey key events = [] := by
  rw [ofKey, List.filter_eq_nil_iff]
  simpa using h

theorem ofKey_eq_self {key : κ} {events : List (AssemblyEvent κ)}
    (h : ∀ event ∈ events, event.key = key) : ofKey key events = events := by
  rw [ofKey, List.filter_eq_self]
  simpa using h

end AssemblyEvent

open AssemblyEvent (History ofKey ofKey_nil ofKey_append ofKey_eq_nil ofKey_eq_self)

namespace Assembler

theorem perm_placeBySerial (sequence : FragmentSequence κ) (queue : List (FragmentSequence κ)) :
    (placeBySerial sequence queue).Perm (sequence :: queue) := by
  induction queue with
  | nil => exact .refl _
  | cons other rest ih =>
    by_cases h : sequence.serial < other.serial
    · rw [placeBySerial, if_pos h]
    · rw [placeBySerial, if_neg h]
      exact (ih.cons other).trans (.swap sequence other rest)

theorem perm_inOpeningOrder (sequences : List (FragmentSequence κ)) :
    (inOpeningOrder sequences).Perm sequences := by
  induction sequences with
  | nil => exact .refl _
  | cons sequence rest ih => exact (perm_placeBySerial sequence _).trans (ih.cons sequence)

variable [DecidableEq κ]

theorem get?_congr {a b : Assembler κ} (ha : a.DistinctKeys) (hb : b.DistinctKeys) {key : κ}
    (h : ∀ sequence, sequence.key = key → (sequence ∈ a.sequences ↔ sequence ∈ b.sequences)) :
    a.get? key = b.get? key := by
  ext sequence
  rw [ha.get?_eq_some_iff, hb.get?_eq_some_iff]
  exact and_congr_left (fun hkey => h sequence hkey)

theorem ofKey_timeouts (key : κ) (ended : List (FragmentSequence κ)) :
    ofKey key (ended.map (fun sequence => .timeout { sequence with status := .timedOut })) =
      (ended.filter (·.key = key)).map
        (fun sequence => .timeout { sequence with status := .timedOut }) :=
  List.filter_map ..

/-- When some of the open sequences time out, the one of a key is either among them or stays. -/
theorem history_timeOut {assembler : Assembler κ} {key : κ} {events : List (AssemblyEvent κ)}
    (h : History key (assembler.get? key) events) (hdistinct : assembler.DistinctKeys)
    {ended kept : List (FragmentSequence κ)} (hsplit : (ended ++ kept).Perm assembler.sequences) :
    History key ((assembler.timeOut ended kept).1.get? key)
      (events ++ ofKey key (assembler.timeOut ended kept).2) := by
  have hboth : (ended ++ kept).Pairwise (fun a b => a.key ≠ b.key) :=
    (hsplit.pairwise_iff (fun hne => hne.symm)).2 hdistinct
  obtain ⟨hended, hkept, hapart⟩ := List.pairwise_append.1 hboth
  have hevents : ofKey key (assembler.timeOut ended kept).2 = _ := ofKey_timeouts key ended
  rw [hevents]
  by_cases hamong : ∃ sequence ∈ ended, sequence.key = key
  · obtain ⟨sequence, hsequence, rfl⟩ := hamong
    have hopen : assembler.get? sequence.key = some sequence :=
      hdistinct.get?_eq_some_iff.2 ⟨hsplit.subset (List.mem_append_left _ hsequence), rfl⟩
    have hclosed : (assembler.timeOut ended kept).1.get? sequence.key = none := by
      rw [get?_eq_none_iff]
      intro other hother
      exact (hapart sequence hsequence other hother).symm
    rw [hopen] at h
    rw [hclosed, filter_eq_singleton hended hsequence]
    exact h.timeout
  · have hnone : ended.filter (·.key = key) = [] := by
      rw [List.filter_eq_nil_iff]
      intro other hother
      simpa using fun hkey => hamong ⟨other, hother, hkey⟩
    have hremaining : (assembler.timeOut ended kept).1.DistinctKeys := hkept
    have hsame : (assembler.timeOut ended kept).1.get? key = assembler.get? key := by
      refine get?_congr hremaining hdistinct ?_
      intro sequence hkey
      rw [← hsplit.mem_iff, List.mem_append]
      exact ⟨.inr, fun hmem => hmem.resolve_left (fun hin => hamong ⟨sequence, hin, hkey⟩)⟩
    rw [hnone, hsame, List.map_nil, List.append_nil]
    exact h

theorem history_advance {assembler : Assembler κ} {key : κ} {events : List (AssemblyEvent κ)}
    (h : History key (assembler.get? key) events) (hdistinct : assembler.DistinctKeys)
    (time : Timestamp) :
    History key ((assembler.advance time).1.get? key)
      (events ++ ofKey key (assembler.advance time).2) :=
  history_timeOut h hdistinct (.of_eq (Idle.overdue_append_current _ _ _))

theorem history_flush {assembler : Assembler κ} {key : κ} {events : List (AssemblyEvent κ)}
    (h : History key (assembler.get? key) events) (hdistinct : assembler.DistinctKeys) :
    History key (assembler.flush.1.get? key) (events ++ ofKey key assembler.flush.2) := by
  refine history_timeOut h hdistinct ?_
  rw [List.append_nil]
  exact perm_inOpeningOrder assembler.sequences

theorem history_makeRoom {assembler : Assembler κ} {key : κ} {events : List (AssemblyEvent κ)}
    (h : History key (assembler.get? key) events) (hdistinct : assembler.DistinctKeys) :
    History key (assembler.makeRoom.1.get? key) (events ++ ofKey key assembler.makeRoom.2) := by
  rcases assembler.makeRoom_cases with ⟨_, heq⟩ | ⟨_, first, rest, hsequences, heq⟩
  · rw [heq, ofKey_nil, List.append_nil]
    exact h
  · let counted : Assembler κ :=
      { assembler with stats := { assembler.stats with evicted := assembler.stats.evicted + 1 } }
    have hcounted : History key (counted.get? key) events := h
    rw [heq]
    exact history_timeOut hcounted hdistinct (.of_eq hsequences.symm)

section Other

variable {assembler : Assembler κ} {key other : κ} (hne : other ≠ key)

include hne

theorem get?_openSequence_of_ne (hdistinct : assembler.DistinctKeys)
    (hopen : assembler.get? other = none) (time : Timestamp) :
    (assembler.openSequence other time).1.get? key = assembler.makeRoom.1.get? key := by
  have hready := hdistinct.ensureOpen other time
  rw [ensureOpen_of_closed hopen] at hready
  refine get?_congr hready (hdistinct.sublist assembler.sequences_makeRoom_sublist) ?_
  intro sequence hkey
  rw [sequences_openSequence, Idle.mem_place]
  refine or_iff_right ?_
  rintro rfl
  exact hne hkey

theorem history_ensureOpen {events : List (AssemblyEvent κ)}
    (h : History key (assembler.get? key) events) (hdistinct : assembler.DistinctKeys)
    (time : Timestamp) :
    History key ((assembler.ensureOpen other time).1.get? key)
      (events ++ ofKey key (assembler.ensureOpen other time).2) := by
  cases hopen : assembler.get? other with
  | some sequence =>
    rw [ensureOpen_of_open hopen, ofKey_nil, List.append_nil]
    exact h
  | none =>
    have hsame := get?_openSequence_of_ne hne hdistinct hopen time
    have hstarted : ofKey key [.sequenceStart other time] = [] :=
      ofKey_eq_nil (by simpa [AssemblyEvent.key] using hne)
    rw [ensureOpen_of_closed hopen, events_openSequence, ofKey_append, hstarted, List.append_nil,
      hsame]
    exact history_makeRoom h hdistinct

theorem get?_addFragment_of_ne (hdistinct : assembler.DistinctKeys) {sequence : FragmentSequence κ}
    (hopen : assembler.get? other = some sequence) (fragment : Fragment) :
    (assembler.addFragment other fragment).1.get? key = assembler.get? key := by
  refine get?_congr (hdistinct.addFragment hopen fragment) hdistinct ?_
  intro found hkey
  have hothers : found ∈ assembler.others other ↔ found ∈ assembler.sequences := by
    rw [mem_others]
    exact and_iff_left (fun heq => hne (heq.symm.trans hkey))
  cases hretains : sequence.retains fragment with
  | true => rw [(addFragment_of_retains hopen hretains).1]
  | false =>
    by_cases hcovered : (sequence.extended fragment).IsCovered
    · rw [(addFragment_of_covered hopen hretains hcovered).1, hothers]
    · rw [(addFragment_of_not_covered hopen hretains hcovered).1, Idle.mem_place, hothers]
      refine or_iff_right ?_
      rintro rfl
      exact hne ((get?_mem hopen).2.symm.trans hkey)

theorem ofKey_reported_of_ne (fragment : Fragment) :
    ofKey key (assembler.reported other fragment) = [] := by
  refine ofKey_eq_nil ?_
  intro event hevent
  rw [key_of_reported event hevent]
  exact hne

theorem history_insert_other {events : List (AssemblyEvent κ)}
    (h : History key (assembler.get? key) events) (hdistinct : assembler.DistinctKeys)
    (fragment : Fragment) :
    History key ((assembler.insert other fragment).1.get? key)
      (events ++ ofKey key (assembler.insert other fragment).2) := by
  have hready := hdistinct.ready other fragment.timestamp
  have hopen := assembler.get?_ready other fragment.timestamp
  have hsame : (assembler.insert other fragment).1.get? key =
      (assembler.ready other fragment.timestamp).get? key :=
    get?_addFragment_of_ne hne hready hopen _
  rw [events_insert, opening, ofKey_append, ofKey_append, ofKey_reported_of_ne hne,
    List.append_nil, ← List.append_assoc, hsame]
  exact history_ensureOpen hne (history_advance h hdistinct fragment.timestamp)
    (hdistinct.sublist (assembler.sequences_advance_sublist _)) _

end Other

section Same

variable {assembler : Assembler κ} {key : κ}

theorem ofKey_ensureOpen_of_closed (hclosed : assembler.get? key = none) (time : Timestamp) :
    ofKey key (assembler.ensureOpen key time).2 = [.sequenceStart key time] := by
  have hroom : ofKey key assembler.makeRoom.2 = [] := by
    refine ofKey_eq_nil ?_
    intro event hevent
    obtain ⟨sequence, hsequence, rfl⟩ := assembler.events_makeRoom event hevent
    exact get?_eq_none_iff.1 hclosed sequence hsequence
  rw [ensureOpen_of_closed hclosed, events_openSequence, ofKey_append, hroom, List.nil_append]
  exact ofKey_eq_self (by simp [AssemblyEvent.key])

theorem ofKey_reported (assembler : Assembler κ) (key : κ) (fragment : Fragment) :
    ofKey key (assembler.reported key fragment) = assembler.reported key fragment := by
  refine ofKey_eq_self ?_
  intro event hevent
  unfold reported at hevent
  split at hevent
  · cases hevent
  · rcases List.mem_cons.1 hevent with rfl | hmem
    · rfl
    · split at hmem
      · rw [List.mem_singleton.1 hmem]
        exact assembler.key_grown key fragment
      · cases hmem

variable {fragment : Fragment} {events : List (AssemblyEvent κ)}
  (h : History key ((assembler.advance fragment.timestamp).1.get? key) events)

include h

theorem history_target (hrepeats : assembler.repeats key fragment = true) :
    History key (some (assembler.target key fragment.timestamp))
      (events ++ ofKey key
        ((assembler.advance fragment.timestamp).1.ensureOpen key fragment.timestamp).2) := by
  have hopen := exists_open_of_repeats hrepeats
  rw [hopen] at h
  rw [ensureOpen_of_open hopen, ofKey_nil, List.append_nil]
  exact h

theorem history_grown (hrepeats : assembler.repeats key fragment = false) :
    History key (some (assembler.grown key fragment))
      (events ++ ofKey key
          ((assembler.advance fragment.timestamp).1.ensureOpen key fragment.timestamp).2 ++
        [.newFragment key fragment.offset fragment.length]) := by
  obtain ⟨hoffset, hlength⟩ := assembler.config.stored_sameRange fragment
  rw [← hoffset, ← hlength]
  cases hopen : (assembler.advance fragment.timestamp).1.get? key with
  | none =>
    have hfirst : ((FragmentSequence.start key fragment.timestamp
        (assembler.advance fragment.timestamp).1.opened).extended
          (assembler.config.stored fragment)).Holds key
            [(assembler.config.stored fragment).range] :=
      ⟨rfl, by simp, List.nodup_singleton _, .refl _⟩
    rw [hopen] at h
    rw [ofKey_ensureOpen_of_closed hopen, grown, target, hopen, Option.getD_none,
      List.append_assoc]
    exact h.start fragment.timestamp hfirst
  | some sequence =>
    rw [hopen] at h
    rw [repeats, target, hopen] at hrepeats
    rw [ensureOpen_of_open hopen, ofKey_nil, List.append_nil, grown, target, hopen]
    exact h.extend hrepeats

end Same

theorem history_insert {assembler : Assembler κ} {key : κ} {events : List (AssemblyEvent κ)}
    (h : History key (assembler.get? key) events) (hdistinct : assembler.DistinctKeys)
    (fragment : Fragment) :
    History key ((assembler.insert key fragment).1.get? key)
      (events ++ ofKey key (assembler.insert key fragment).2) := by
  have hadvanced := history_advance h hdistinct fragment.timestamp
  rw [events_insert, opening, ofKey_append, ofKey_append, ofKey_reported, ← List.append_assoc,
    ← List.append_assoc]
  cases hrepeats : assembler.repeats key fragment with
  | true =>
    have hkept : assembler.repeats key fragment = false →
        ¬ (assembler.grown key fragment).IsCovered := by
      intro hnew
      rw [hrepeats] at hnew
      cases hnew
    rw [get?_insert hdistinct hkept, hrepeats, reported_of_repeats hrepeats, List.append_nil]
    exact history_target hadvanced hrepeats
  | false =>
    have hgrown := history_grown hadvanced hrepeats
    by_cases hcovered : (assembler.grown key fragment).IsCovered
    · rw [get?_insert_of_covered hrepeats hcovered, reported_of_covered hrepeats hcovered]
      simpa using hgrown.complete
    · have hnext := get?_insert hdistinct (fun _ => hcovered)
      rw [hnext, hrepeats, reported_of_not_covered hrepeats hcovered]
      exact hgrown

theorem history_apply {assembler : Assembler κ} {key : κ} {events : List (AssemblyEvent κ)}
    (h : History key (assembler.get? key) events) (hdistinct : assembler.DistinctKeys)
    (operation : AssemblyOperation κ) :
    History key ((assembler.apply operation).1.get? key)
      (events ++ ofKey key (assembler.apply operation).2) := by
  cases operation with
  | insert other fragment =>
    by_cases hkey : other = key
    · subst hkey
      exact history_insert h hdistinct fragment
    · exact history_insert_other hkey h hdistinct fragment
  | advance time => exact history_advance h hdistinct time
  | flush => exact history_flush h hdistinct

theorem history_after (config : AssemblyConfig) (operations : List (AssemblyOperation κ))
    (key : κ) :
    History key (((ofConfig config).after operations).get? key)
      (ofKey key (((ofConfig config).calls operations).flatMap AssemblyCall.events)) := by
  have hnone : ∀ events ∈ ([] : List (List (AssemblyEvent κ))),
      AssemblyEvent.Lifetime key events := by simp
  have hrun := run_induction (motive := fun current calls => current.DistinctKeys ∧
      History key (current.get? key) (ofKey key (calls.flatMap AssemblyCall.events)))
    (ofConfig config) ⟨.nil, .closed hnone⟩ ?_ operations
  · exact hrun.2
  · rintro current calls operation ⟨hdistinct, h⟩
    refine ⟨hdistinct.apply operation, ?_⟩
    rw [List.flatMap_append, ofKey_append, List.flatMap_singleton]
    exact history_apply h hdistinct operation

theorem duplicates_ensureOpen (assembler : Assembler κ) (key : κ) (time : Timestamp) :
    (assembler.ensureOpen key time).1.stats.duplicates = assembler.stats.duplicates := by
  cases hopen : assembler.get? key with
  | some sequence => rw [ensureOpen_of_open hopen]
  | none =>
    rw [ensureOpen_of_closed hopen]
    change assembler.makeRoom.1.stats.duplicates = _
    rcases assembler.makeRoom_cases with ⟨_, heq⟩ | ⟨_, first, rest, _, heq⟩
    · rw [heq]
    · rw [heq]
      rfl

theorem duplicates_settle (assembler : Assembler κ) (sequence : FragmentSequence κ) :
    (assembler.settle sequence).1.stats.duplicates = assembler.stats.duplicates := by
  unfold settle
  simp only
  split <;> rfl

theorem duplicates_addFragment {assembler : Assembler κ} {key : κ} {fragment : Fragment}
    {sequence : FragmentSequence κ} (hopen : assembler.get? key = some sequence) :
    (assembler.addFragment key fragment).1.stats.duplicates =
      assembler.stats.duplicates + if sequence.retains fragment then 1 else 0 := by
  cases hretains : sequence.retains fragment with
  | true => simp [addFragment, hopen, FragmentSequence.place_of_retains hretains]
  | false =>
    simp [addFragment, hopen, FragmentSequence.place_of_not_retains hretains, duplicates_settle]

theorem duplicates_insert (assembler : Assembler κ) (key : κ) (fragment : Fragment) :
    (assembler.insert key fragment).1.stats.duplicates =
      assembler.stats.duplicates + if assembler.repeats key fragment then 1 else 0 := by
  rw [insert_eq, duplicates_addFragment (assembler.get?_ready key fragment.timestamp), ready,
    duplicates_ensureOpen]
  rfl

theorem newFragments_opening (assembler : Assembler κ) (key : κ) (time : Timestamp) :
    (assembler.opening key time).filter AssemblyEvent.isNewFragment = [] := by
  rw [List.filter_eq_nil_iff]
  intro event hevent
  rcases List.mem_append.1 hevent with hmem | hmem
  · obtain ⟨sequence, rfl⟩ := events_advance_timeout _ _ event hmem
    simp [AssemblyEvent.isNewFragment]
  · rcases events_ensureOpen hmem with ⟨sequence, _, rfl⟩ | rfl <;>
      simp [AssemblyEvent.isNewFragment]

/-- An insertion reports its fragment as new unless the range of the fragment is retained. -/
theorem newFragments_insert (assembler : Assembler κ) (key : κ) (fragment : Fragment) :
    (assembler.insert key fragment).2.filter AssemblyEvent.isNewFragment =
      if assembler.repeats key fragment then []
      else [.newFragment key fragment.offset fragment.length] := by
  rw [events_insert, List.filter_append, newFragments_opening, List.nil_append]
  cases hrepeats : assembler.repeats key fragment with
  | true =>
    rw [reported_of_repeats hrepeats]
    rfl
  | false =>
    by_cases hcovered : (assembler.grown key fragment).IsCovered
    · rw [reported_of_covered hrepeats hcovered]
      rfl
    · rw [reported_of_not_covered hrepeats hcovered]
      rfl

/-- A fragment is repeated when its key has an open sequence at its time that holds its range. -/
theorem repeats_iff {assembler : Assembler κ} {key : κ} {fragment : Fragment} :
    assembler.repeats key fragment = true ↔
      ∃ sequence, (assembler.advance fragment.timestamp).1.get? key = some sequence ∧
        fragment.range ∈ sequence.ranges := by
  constructor
  · intro h
    refine ⟨_, exists_open_of_repeats h, ?_⟩
    rw [repeats, FragmentSequence.retains_iff_range, AssemblyConfig.range_stored] at h
    exact h
  · rintro ⟨sequence, hopen, hmem⟩
    rw [repeats, target, hopen, Option.getD_some, FragmentSequence.retains_iff_range,
      AssemblyConfig.range_stored]
    exact hmem

/-- After every run the events of a key are its lifetimes, one behind the other, the last of which
goes on exactly when the key has an open sequence. A sequence holds the ranges reported in its
lifetime, no two of which are the same. One more fragment for the key repeats another one when the
sequence that is open at its time holds its range. It is counted as a duplicate then, and otherwise
it is reported as new, once. -/
theorem lifetimes_of_run (config : AssemblyConfig) (operations : List (AssemblyOperation κ))
    (key : κ) :
    let assembler := (ofConfig config).after operations
    History key (assembler.get? key)
        (ofKey key (((ofConfig config).calls operations).flatMap AssemblyCall.events)) ∧
      ∀ fragment, let result := assembler.insert key fragment
        (assembler.repeats key fragment = true ↔
          ∃ sequence, (assembler.advance fragment.timestamp).1.get? key = some sequence ∧
            fragment.range ∈ sequence.ranges) ∧
        result.2.filter AssemblyEvent.isNewFragment =
          (if assembler.repeats key fragment then []
            else [.newFragment key fragment.offset fragment.length]) ∧
        result.1.stats.duplicates =
          assembler.stats.duplicates + (if assembler.repeats key fragment then 1 else 0) := by
  intro assembler
  refine ⟨history_after config operations key, ?_⟩
  intro fragment result
  exact ⟨repeats_iff, assembler.newFragments_insert key fragment,
    assembler.duplicates_insert key fragment⟩

end Assembler

end Dissection
