import Dissection.Proofs.Reassembly.Pieces
import Dissection.Proofs.Reassembly.Run
import Mathlib.Data.List.TakeWhile

/-!
# Delivery

The pieces of a datagram are inserted under a key without an open sequence, in any order and any
number of times, all within the window. The sequence of the key neither times out nor completes
while a piece is missing, and the insertion of the last missing piece completes it with the
datagram.
-/

namespace Dissection

theorem mem_map_append_left {α β : Type} {f : α → β} {x : β} {things more : List α}
    (h : x ∈ things.map f) : x ∈ (things ++ more).map f := by
  rw [List.map_append]
  exact List.mem_append_left _ h

variable {κ : Type} [DecidableEq κ]

/-- Whether the event ends a sequence of the key. -/
def AssemblyEvent.ends (key : κ) (event : AssemblyEvent κ) : Bool :=
  event.isTerminal && event.key = key

theorem AssemblyEvent.ends_of_key {key : κ} {event : AssemblyEvent κ} (h : event.key = key) :
    event.ends key = event.isTerminal := by
  simp [ends, h]

namespace Assembler

section Fresh

variable {assembler : Assembler κ} {key : κ} {time : Timestamp}

/-- No open sequence of the key is overdue at a time. -/
def Fresh (assembler : Assembler κ) (key : κ) (time : Timestamp) : Prop :=
  ∀ sequence ∈ assembler.sequences, sequence.key = key →
    Idle.isOverdue (max assembler.now time) assembler.config.window sequence = false

theorem Fresh.advance_quiet (h : assembler.Fresh key time) :
    ∀ event ∈ (assembler.advance time).2, event.ends key = false := by
  intro event hevent
  rw [events_advance] at hevent
  obtain ⟨sequence, hsequence, rfl⟩ := List.mem_map.1 hevent
  by_cases hkey : sequence.key = key
  · have hmem := (List.takeWhile_sublist _).mem hsequence
    have hoverdue := List.mem_takeWhile_imp hsequence
    rw [h sequence hmem hkey] at hoverdue
    cases hoverdue
  · simp [AssemblyEvent.ends, AssemblyEvent.key, hkey]

theorem Fresh.opening_quiet (h : assembler.Fresh key time) :
    ∀ event ∈ assembler.opening key time, event.ends key = false := by
  intro event hevent
  rcases List.mem_append.1 hevent with hmem | hmem
  · exact h.advance_quiet event hmem
  · rcases events_ensureOpen hmem with ⟨sequence, hkey, rfl⟩ | rfl
    · simp [AssemblyEvent.ends, AssemblyEvent.key, hkey]
    · rfl

theorem target_of_closed (h : assembler.get? key = none) :
    assembler.target key time = .start key time (assembler.advance time).1.opened := by
  have hclosed : (assembler.advance time).1.get? key = none := by
    rw [get?_eq_none_iff] at h ⊢
    intro sequence hsequence
    exact h sequence ((assembler.sequences_advance_sublist time).mem hsequence)
  rw [target, hclosed, Option.getD_none]

theorem Fresh.target_of_open (h : assembler.Fresh key time) (hdistinct : assembler.DistinctKeys)
    {sequence : FragmentSequence κ} (hopen : assembler.get? key = some sequence) :
    assembler.target key time = sequence := by
  obtain ⟨hmem, hkey⟩ := get?_mem hopen
  have hkept : sequence ∈ (assembler.advance time).1.sequences := by
    have hsplit := Idle.overdue_append_current (max assembler.now time) assembler.config.window
      assembler.sequences
    rcases List.mem_append.1 (hsplit ▸ hmem) with hoverdue | hcurrent
    · have hexpired := List.mem_takeWhile_imp hoverdue
      rw [h sequence hmem hkey] at hexpired
      cases hexpired
    · exact hcurrent
  have hadvanced : (assembler.advance time).1.DistinctKeys :=
    hdistinct.sublist (assembler.sequences_advance_sublist time)
  rw [target, hadvanced.get?_eq_some_iff.2 ⟨hkept, hkey⟩, Option.getD_some]

end Fresh

variable {datagram : Bytes} {cut : Cut datagram}

/-- The sequence of the key gathers the pieces that have arrived, and was active when one of them
came. It is open unless nothing has arrived. The clock shows the time at which the arrivals started,
or that of one of them. -/
structure Awaits (assembler : Assembler κ) (key : κ) (started : Timestamp)
    (arrivals : List (Arrival cut)) : Prop where
  distinct : assembler.DistinctKeys
  clock : assembler.now ∈ started :: arrivals.map Arrival.time
  gathers : assembler.get? key = none ∧ arrivals = [] ∨
    ∃ sequence, assembler.get? key = some sequence ∧
      sequence.Gathers assembler.config arrivals ∧
      sequence.lastFragmentAt ∈ arrivals.map Arrival.time

/-- No two of the times are further apart than the window, and the clock is not further ahead. -/
def WithinWindow (window : Duration) (started : Timestamp) (times : List Timestamp) : Prop :=
  ∀ early ∈ times, ∀ late ∈ started :: times, (late.since early).nanos ≤ window.nanos

section Awaits

variable {assembler : Assembler κ} {key : κ} {started : Timestamp} {arrivals : List (Arrival cut)}
  {arrival : Arrival cut} (h : assembler.Awaits key started arrivals)

include h

theorem Awaits.clock_insert :
    max assembler.now arrival.time ∈ started :: (arrivals ++ [arrival]).map Arrival.time := by
  rcases Timestamp.max_eq_or assembler.now arrival.time with hmax | hmax
  · rw [hmax, List.map_append, ← List.cons_append]
    exact List.mem_append_left _ h.clock
  · simp [hmax]

theorem Awaits.fresh (hwindow : WithinWindow assembler.config.window started
      ((arrivals ++ [arrival]).map Arrival.time)) : assembler.Fresh key arrival.time := by
  intro sequence hsequence hkey
  have hopen := h.distinct.get?_eq_some_iff.2 ⟨hsequence, hkey⟩
  rcases h.gathers with ⟨hclosed, _⟩ | ⟨found, hfound, _, hactive⟩
  · rw [hclosed] at hopen
    cases hopen
  · rw [hfound] at hopen
    cases hopen
    have hle := hwindow _ (mem_map_append_left hactive) _ h.clock_insert
    rw [Idle.isOverdue, isExpired]
    exact decide_eq_false (Nat.not_lt.2 hle)

theorem Awaits.target (hfresh : assembler.Fresh key arrival.time) :
    (assembler.target key arrival.time).Gathers assembler.config arrivals ∧
      (assembler.target key arrival.time).lastFragmentAt ∈
        (arrivals ++ [arrival]).map Arrival.time := by
  rcases h.gathers with ⟨hclosed, rfl⟩ | ⟨sequence, hopen, hgathers, hactive⟩
  · rw [target_of_closed hclosed]
    exact ⟨⟨.start assembler.config key arrival.time _, rfl⟩, List.mem_singleton_self _⟩
  · rw [hfresh.target_of_open h.distinct hopen]
    exact ⟨hgathers, mem_map_append_left hactive⟩

variable (hretain : assembler.config.retainPayload = true) (hfresh : assembler.Fresh key arrival.time)

include hretain hfresh

theorem Awaits.grown (hrepeats : assembler.repeats key arrival.fragment = false) :
    (assembler.grown key arrival.fragment).Gathers assembler.config (arrivals ++ [arrival]) :=
  (h.target hfresh).1.extended hretain hrepeats

theorem Awaits.lastFragmentAt_grown :
    (assembler.grown key arrival.fragment).lastFragmentAt ∈
      (arrivals ++ [arrival]).map Arrival.time := by
  have hmax : (assembler.grown key arrival.fragment).lastFragmentAt =
      max (assembler.target key arrival.time).lastFragmentAt arrival.time := by
    rw [Assembler.grown, AssemblyConfig.stored_of_retain hretain]
    rfl
  rw [hmax]
  rcases Timestamp.max_eq_or (assembler.target key arrival.time).lastFragmentAt
    arrival.time with heq | heq
  · rw [heq]
    exact (h.target hfresh).2
  · simp [heq]

section Missing

variable (hmissing : ∃ index, index ∉ (arrivals ++ [arrival]).map Arrival.index)

include hmissing

theorem Awaits.not_isCovered (hrepeats : assembler.repeats key arrival.fragment = false) :
    ¬ (assembler.grown key arrival.fragment).IsCovered := by
  intro hcovered
  obtain ⟨index, hindex⟩ := hmissing
  have hnext := h.grown hretain hfresh hrepeats
  exact hindex ((hnext.isCovered_iff hretain arrival.datagram_ne_nil).1 hcovered index)

/-- While a piece is missing the sequence stays open. -/
theorem Awaits.insert :
    (assembler.insert key arrival.fragment).1.Awaits key started (arrivals ++ [arrival]) := by
  have hnext := get?_insert h.distinct (h.not_isCovered hretain hfresh hmissing)
  refine ⟨h.distinct.apply (.insert key arrival.fragment), ?_, .inr ⟨_, hnext, ?_, ?_⟩⟩
  · rw [now_insert]
    exact h.clock_insert
  · rw [config_insert]
    exact (h.target hfresh).1.offered hretain arrival
  · split
    · exact (h.target hfresh).2
    · exact h.lastFragmentAt_grown hretain hfresh

/-- While a piece is missing no event ends the sequence. -/
theorem Awaits.insert_quiet :
    ∀ event ∈ (assembler.insert key arrival.fragment).2, event.ends key = false := by
  intro event hevent
  rw [events_insert, List.mem_append] at hevent
  rcases hevent with hevent | hevent
  · exact hfresh.opening_quiet event hevent
  · cases hrepeats : assembler.repeats key arrival.fragment with
    | true => simp [reported_of_repeats hrepeats] at hevent
    | false =>
      have huncovered := h.not_isCovered hretain hfresh hmissing hrepeats
      rw [reported_of_not_covered hrepeats huncovered, List.mem_singleton] at hevent
      rw [hevent]
      rfl

end Missing

theorem Awaits.complete (hmissing : arrival.index ∉ arrivals.map Arrival.index)
    (hall : ∀ index, index ∈ (arrivals ++ [arrival]).map Arrival.index) :
    ∃ done, (assembler.insert key arrival.fragment).2.filter (·.ends key) = [.complete done] ∧
      done.totalLength = some datagram.length ∧ done.reassemble = some datagram := by
  have hrepeats : assembler.repeats key arrival.fragment = false := by
    rw [Bool.eq_false_iff]
    intro hrepeats
    obtain ⟨fragment, hfragment, hrange⟩ := FragmentSequence.retains_iff.1 hrepeats
    obtain ⟨other, hother, rfl⟩ := (h.target hfresh).1.arrived hretain hfragment
    have hindex := Arrival.index_eq_of_sameRange
      (hrange.trans (assembler.config.stored_sameRange arrival.fragment))
    exact hmissing (hindex ▸ List.mem_map_of_mem hother)
  have hnext := h.grown hretain hfresh hrepeats
  have hcovered := (hnext.isCovered_iff hretain arrival.datagram_ne_nil).2 hall
  refine ⟨{ assembler.grown key arrival.fragment with status := .complete }, ?_,
    hnext.totalLength_eq hretain arrival.datagram_ne_nil hall, hnext.joined hretain hcovered⟩
  have hquiet : (assembler.opening key arrival.fragment.timestamp).filter (·.ends key) = [] := by
    rw [List.filter_eq_nil_iff]
    intro event hevent
    simp [hfresh.opening_quiet event hevent]
  rw [events_insert, List.filter_append, hquiet, reported_of_covered hrepeats hcovered]
  simp [AssemblyEvent.ends, AssemblyEvent.isTerminal, AssemblyEvent.key]

end Awaits

theorem awaits_of_closed {assembler : Assembler κ} {key : κ} (hdistinct : assembler.DistinctKeys)
    (hclosed : assembler.get? key = none) :
    assembler.Awaits key assembler.now ([] : List (Arrival cut)) where
  distinct := hdistinct
  clock := List.mem_cons_self
  gathers := .inl ⟨hclosed, rfl⟩

def deliveries (key : κ) (arrivals : List (Arrival cut)) : List (AssemblyOperation κ) :=
  arrivals.map (fun arrival => .insert key arrival.fragment)

theorem WithinWindow.append_left {window : Duration} {started : Timestamp}
    {times more : List Timestamp} (h : WithinWindow window started (times ++ more)) :
    WithinWindow window started times := by
  intro early hearly late hlate
  refine h early (List.mem_append_left _ hearly) late ?_
  rw [← List.cons_append]
  exact List.mem_append_left _ hlate

theorem missing_before {arrivals more : List (Arrival cut)}
    (h : ∃ index, index ∉ (arrivals ++ more).map Arrival.index) :
    ∃ index, index ∉ arrivals.map Arrival.index := by
  obtain ⟨index, hindex⟩ := h
  exact ⟨index, fun hmem => hindex (mem_map_append_left hmem)⟩

/-- While a piece is missing the sequence is still there for the next one. -/
theorem awaits_after_deliveries {assembler : Assembler κ} {key : κ}
    (hdistinct : assembler.DistinctKeys) (hclosed : assembler.get? key = none)
    (hretain : assembler.config.retainPayload = true) {arrivals : List (Arrival cut)}
    (hwindow : WithinWindow assembler.config.window assembler.now (arrivals.map Arrival.time))
    (hmissing : ∃ index, index ∉ arrivals.map Arrival.index) :
    (assembler.after (deliveries key arrivals)).Awaits key assembler.now arrivals := by
  induction arrivals using List.reverseRecOn with
  | nil => exact awaits_of_closed hdistinct hclosed
  | append_singleton arrivals last ih =>
    have hearlier := hwindow
    rw [List.map_append] at hearlier
    have hawaits := ih hearlier.append_left (missing_before hmissing)
    rw [← assembler.config_after (deliveries key arrivals)] at hretain hwindow
    have hstep := hawaits.insert hretain (hawaits.fresh hwindow) hmissing
    rw [deliveries, List.map_append, List.map_singleton, after_concat]
    exact hstep

/-- While a piece is missing no insertion so far has ended the sequence. -/
theorem quiet_while_missing {assembler : Assembler κ} {key : κ}
    (hdistinct : assembler.DistinctKeys) (hclosed : assembler.get? key = none)
    (hretain : assembler.config.retainPayload = true) {arrivals : List (Arrival cut)}
    (hwindow : WithinWindow assembler.config.window assembler.now (arrivals.map Arrival.time))
    (hmissing : ∃ index, index ∉ arrivals.map Arrival.index) :
    ∀ call ∈ assembler.calls (deliveries key arrivals), ∀ event ∈ call.events,
      event.ends key = false := by
  induction arrivals using List.reverseRecOn with
  | nil => simp [deliveries, calls]
  | append_singleton arrivals last ih =>
    have hearlier := hwindow
    rw [List.map_append] at hearlier
    have hawaits := awaits_after_deliveries hdistinct hclosed hretain hearlier.append_left
      (missing_before hmissing)
    have hquiet := ih hearlier.append_left (missing_before hmissing)
    rw [← assembler.config_after (deliveries key arrivals)] at hretain hwindow
    have hlast := hawaits.insert_quiet hretain (hawaits.fresh hwindow) hmissing
    rw [deliveries, List.map_append, List.map_singleton, calls_concat]
    simp only [List.forall_mem_append, List.forall_mem_singleton]
    exact ⟨hquiet, hlast⟩

/-- When the only missing piece comes, the datagram is complete. -/
theorem completes_with_last {assembler : Assembler κ} {key : κ}
    (hdistinct : assembler.DistinctKeys) (hclosed : assembler.get? key = none)
    (hretain : assembler.config.retainPayload = true) {arrivals : List (Arrival cut)}
    {last : Arrival cut} (hwindow : WithinWindow assembler.config.window assembler.now
      ((arrivals ++ [last]).map Arrival.time))
    (hmissing : last.index ∉ arrivals.map Arrival.index)
    (hall : ∀ index, index ∈ (arrivals ++ [last]).map Arrival.index) :
    ∃ done, ((assembler.after (deliveries key arrivals)).insert key last.fragment).2.filter
        (·.ends key) = [.complete done] ∧
      done.totalLength = some datagram.length ∧ done.reassemble = some datagram := by
  have hearlier := hwindow
  rw [List.map_append] at hearlier
  have hawaits := awaits_after_deliveries hdistinct hclosed hretain hearlier.append_left
    ⟨last.index, hmissing⟩
  rw [← assembler.config_after (deliveries key arrivals)] at hretain hwindow
  exact hawaits.complete hretain (hawaits.fresh hwindow) hmissing hall

section Serves

/-- All open sequences belong to one key. -/
def Serves (assembler : Assembler κ) (key : κ) : Prop :=
  ∀ sequence ∈ assembler.sequences, sequence.key = key

variable {assembler : Assembler κ} {key : κ} (h : assembler.Serves key)

include h

theorem Serves.insert (hdistinct : assembler.DistinctKeys) (fragment : Fragment) :
    (assembler.insert key fragment).1.Serves key := by
  intro sequence hsequence
  rcases mem_sequences_insert hdistinct hsequence with ⟨hmem, _⟩ | ⟨_, rfl⟩ | ⟨_, rfl⟩
  · exact h sequence hmem
  · exact assembler.key_target key fragment.timestamp
  · exact assembler.key_grown key fragment

theorem Serves.key_of_opening {time : Timestamp} :
    ∀ event ∈ assembler.opening key time, event.key = key := by
  intro event hevent
  rcases List.mem_append.1 hevent with hmem | hmem
  · rw [events_advance] at hmem
    obtain ⟨sequence, hsequence, rfl⟩ := List.mem_map.1 hmem
    exact h sequence ((List.takeWhile_sublist _).mem hsequence)
  · cases hopen : (assembler.advance time).1.get? key with
    | some sequence =>
      rw [ensureOpen_of_open hopen] at hmem
      cases hmem
    | none =>
      rw [ensureOpen_of_closed hopen, events_openSequence, List.mem_append] at hmem
      rcases hmem with hmem | hmem
      · obtain ⟨sequence, hsequence, rfl⟩ := events_makeRoom _ event hmem
        exact h sequence ((assembler.sequences_advance_sublist time).mem hsequence)
      · rw [List.mem_singleton.1 hmem]
        rfl

theorem Serves.key_of_insert {fragment : Fragment} :
    ∀ event ∈ (assembler.insert key fragment).2, event.key = key := by
  intro event hevent
  rw [events_insert, List.mem_append] at hevent
  rcases hevent with hevent | hevent
  · exact h.key_of_opening event hevent
  · exact key_of_reported event hevent

/-- As long as fragments come for one key only, no other key is heard of. -/
theorem Serves.key_of_calls (hdistinct : assembler.DistinctKeys) (arrivals : List (Arrival cut)) :
    ∀ call ∈ assembler.calls (deliveries key arrivals), ∀ event ∈ call.events,
      event.key = key := by
  induction arrivals generalizing assembler with
  | nil => simp [deliveries, calls]
  | cons arrival rest ih =>
    have hrest := ih (h.insert hdistinct arrival.fragment) (hdistinct.apply (.insert key _))
    intro call hcall
    rcases List.mem_cons.1 hcall with rfl | hcall
    · exact h.key_of_insert
    · exact hrest call hcall

end Serves

/-- Pieces inserted in any order complete the datagram with the last missing one, and no event ends
their sequence before. -/
theorem delivered_in_any_order {assembler : Assembler κ} (hreachable : assembler.Reachable)
    (hretain : assembler.config.retainPayload = true) {key : κ}
    (hclosed : assembler.get? key = none) (arrivals : List (Arrival cut)) (arrival : Arrival cut)
    (hwindow : WithinWindow assembler.config.window assembler.now
      ((arrivals ++ [arrival]).map Arrival.time)) :
    let events := ((assembler.after (deliveries key arrivals)).insert key arrival.fragment).2
    ((∃ index, index ∉ (arrivals ++ [arrival]).map Arrival.index) →
        ∀ event ∈ events, event.ends key = false) ∧
      (arrival.index ∉ arrivals.map Arrival.index →
        (∀ index, index ∈ (arrivals ++ [arrival]).map Arrival.index) →
        ∃ done, events.filter (·.ends key) = [.complete done] ∧
          done.totalLength = some datagram.length ∧ done.reassemble = some datagram) := by
  intro events
  have hconfig := assembler.config_after (deliveries key arrivals)
  have hearlier := hwindow
  rw [List.map_append] at hearlier
  have hawaits := awaits_after_deliveries hreachable.distinctKeys hclosed hretain
    hearlier.append_left
  rw [← hconfig] at hretain hwindow
  constructor
  · intro hmissing
    have hopen := hawaits (missing_before hmissing)
    exact hopen.insert_quiet hretain (hopen.fresh hwindow) hmissing
  · intro hmissing hall
    have hopen := hawaits ⟨arrival.index, hmissing⟩
    exact hopen.complete hretain (hopen.fresh hwindow) hmissing hall

section Reversed

/-- Three bytes in two pieces. -/
def twoPieces : Cut [1, 2, 3] where
  pieces := [[1], [2, 3]]
  ne_nil := by decide
  whole := rfl

def firstPiece : Arrival twoPieces := ⟨⟨0, by decide⟩, .ofSeconds 15⟩

/-- The second piece comes twice before the first one. -/
def laterPiece : List (Arrival twoPieces) :=
  [⟨⟨1, by decide⟩, .ofSeconds 20⟩, ⟨⟨1, by decide⟩, .ofSeconds 5⟩]

def busy : Assembler Nat := (ofConfig {}).after [.insert 9 (.ofLength 0 8 true .zero)]

theorem delivered_in_reverse :
    busy.Reachable ∧ busy.get? 7 = none ∧
      WithinWindow busy.config.window busy.now ((laterPiece ++ [firstPiece]).map Arrival.time) ∧
      ∃ done, ((busy.after (deliveries 7 laterPiece)).insert 7 firstPiece.fragment).2.filter
          (·.ends 7) = [.complete done] ∧
        done.totalLength = some 3 ∧ done.reassemble = some [1, 2, 3] := by
  have hreachable : busy.Reachable := ⟨{}, _, rfl⟩
  have hclosed : busy.get? 7 = none := by decide
  have hwindow : WithinWindow busy.config.window busy.now
      ((laterPiece ++ [firstPiece]).map Arrival.time) := by
    unfold WithinWindow
    decide
  exact ⟨hreachable, hclosed, hwindow,
    (delivered_in_any_order hreachable rfl hclosed laterPiece firstPiece hwindow).2
      (by decide) (by decide)⟩

end Reversed

end Assembler

end Dissection
