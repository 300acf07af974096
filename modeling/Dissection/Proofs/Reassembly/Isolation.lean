import Dissection.Proofs.Reassembly.History
import Dissection.Proofs.Reassembly.Order

/-!
# Keys do not interfere

An assembler shows a key its open sequence and its recent ends, and the events of the key; serial
numbers are private. Two assemblers that show a key the same go on to do so, whatever else they
hold. Fragments for other keys only move the clock, as long as no sequence has to make room.
-/

namespace Dissection

variable {κ : Type}

def FragmentSequence.unnumbered (sequence : FragmentSequence κ) : FragmentSequence κ :=
  { sequence with serial := 0 }

namespace AssemblyEvent

def unnumbered : AssemblyEvent κ → AssemblyEvent κ
  | .sequenceStart key time => .sequenceStart key time
  | .newFragment key offset length => .newFragment key offset length
  | .complete sequence => .complete sequence.unnumbered
  | .timeout sequence => .timeout sequence.unnumbered

@[simp] theorem key_unnumbered (event : AssemblyEvent κ) : event.unnumbered.key = event.key := by
  cases event <;> rfl

variable [DecidableEq κ]

/-- What a key sees of events: its own ones, without serial numbers. -/
def seenBy (key : κ) (events : List (AssemblyEvent κ)) : List (AssemblyEvent κ) :=
  (ofKey key events).map unnumbered

theorem seenBy_append (key : κ) (events more : List (AssemblyEvent κ)) :
    seenBy key (events ++ more) = seenBy key events ++ seenBy key more := by
  rw [seenBy, ofKey_append, List.map_append]
  rfl

end AssemblyEvent

open AssemblyEvent (ofKey seenBy seenBy_append ofKey_append ofKey_eq_nil ofKey_eq_self)

namespace Assembler

variable [DecidableEq κ]

def closingsOf (assembler : Assembler κ) (key : κ) : List (Closing κ) :=
  assembler.closings.filter (·.key = key)

def shown? (assembler : Assembler κ) (key : κ) : Option (FragmentSequence κ) :=
  (assembler.get? key).map FragmentSequence.unnumbered

theorem DistinctKeys.filter_key {assembler : Assembler κ} (h : assembler.DistinctKeys) (key : κ) :
    assembler.sequences.filter (·.key = key) = (assembler.get? key).toList := by
  cases hopen : assembler.get? key with
  | none =>
    refine List.filter_eq_nil_iff.2 ?_
    simpa using get?_eq_none_iff.1 hopen
  | some sequence =>
    obtain ⟨hmem, rfl⟩ := get?_mem hopen
    exact filter_eq_singleton h hmem

theorem DistinctKeys.get?_eq_of_filter {assembler : Assembler κ} (h : assembler.DistinctKeys)
    {key : κ} {sequence : Option (FragmentSequence κ)}
    (hfilter : assembler.sequences.filter (·.key = key) = sequence.toList) :
    assembler.get? key = sequence := by
  rw [h.filter_key] at hfilter
  have hhead := congrArg List.head? hfilter
  rwa [Option.head?_toList, Option.head?_toList] at hhead

theorem closingsOf_close (assembler : Assembler κ) (key : κ) (ended : List (FragmentSequence κ)) :
    (assembler.close ended).closingsOf key =
      assembler.closingsOf key ++
        (ended.filter (·.key = key)).map (fun sequence => ⟨assembler.now, sequence.key⟩) := by
  rw [closingsOf, close, List.filter_append, List.filter_map]
  rfl

omit [DecidableEq κ] in
theorem closings_advance (assembler : Assembler κ) (time : Timestamp) :
    (assembler.advance time).1.closings =
      assembler.closings.dropWhile (fun closing =>
          isExpired (max assembler.now time) closing.time assembler.config.window) ++
        (Idle.overdue (max assembler.now time) assembler.config.window assembler.sequences).map
          (fun sequence => ⟨max assembler.now time, sequence.key⟩) := rfl

section Sweep

variable {assembler : Assembler κ} (h : assembler.Regular) (key : κ) (time : Timestamp)

include h

theorem Regular.overdue_of_key (now : Timestamp) (limit : Duration) :
    (Idle.overdue now limit assembler.sequences).filter (·.key = key) =
      ((assembler.get? key).filter (Idle.isOverdue now limit)).toList := by
  rw [h.sorted.overdue_eq_filter, List.filter_comm, h.distinct.filter_key, Option.toList_filter]

theorem Regular.get?_advance :
    (assembler.advance time).1.get? key =
      (assembler.get? key).filter
        (!Idle.isOverdue (max assembler.now time) assembler.config.window ·) := by
  refine (h.advance time).distinct.get?_eq_of_filter ?_
  change (Idle.current _ _ assembler.sequences).filter _ = _
  rw [h.sorted.current_eq_filter, List.filter_comm, h.distinct.filter_key, Option.toList_filter]
  rfl

theorem Regular.ofKey_advance :
    ofKey key (assembler.advance time).2 =
      ((assembler.get? key).filter
          (Idle.isOverdue (max assembler.now time) assembler.config.window)).toList.map
        (fun sequence => .timeout { sequence with status := .timedOut }) := by
  rw [events_advance, ofKey_timeouts, h.overdue_of_key]

theorem Regular.closingsOf_advance :
    (assembler.advance time).1.closingsOf key =
      (assembler.closingsOf key).filter
          (fun closing =>
            !isExpired (max assembler.now time) closing.time assembler.config.window) ++
        ((assembler.get? key).filter
          (Idle.isOverdue (max assembler.now time) assembler.config.window)).toList.map
            (fun sequence => ⟨max assembler.now time, sequence.key⟩) := by
  rw [closingsOf, closings_advance, List.filter_append, List.filter_map,
    dropWhile_isExpired h.closings_sorted, List.filter_comm, ← h.overdue_of_key]
  rfl

theorem Regular.ofKey_flush :
    ofKey key assembler.flush.2 =
      (assembler.get? key).toList.map
        (fun sequence => .timeout { sequence with status := .timedOut }) := by
  have hperm := (perm_inOpeningOrder assembler.sequences).filter (·.key = key)
  rw [h.distinct.filter_key] at hperm
  change ofKey key (List.map _ _) = _
  rw [ofKey_timeouts, eq_toList_of_perm hperm]

theorem Regular.closingsOf_flush :
    assembler.flush.1.closingsOf key =
      assembler.closingsOf key ++
        (assembler.get? key).toList.map (fun sequence => ⟨assembler.now, sequence.key⟩) := by
  have hperm := (perm_inOpeningOrder assembler.sequences).filter (·.key = key)
  rw [h.distinct.filter_key] at hperm
  rw [← eq_toList_of_perm hperm]
  exact assembler.closingsOf_close key _

end Sweep

/-- The two assemblers show the key the same. -/
structure Alike (key : κ) (a b : Assembler κ) : Prop where
  config_eq : a.config = b.config
  now_eq : a.now = b.now
  sequence_eq : a.shown? key = b.shown? key
  closings_eq : a.closingsOf key = b.closingsOf key

structure AlikeResults (key : κ) (a b : Assembler κ × List (AssemblyEvent κ)) : Prop where
  assemblers : Alike key a.1 b.1
  events : seenBy key a.2 = seenBy key b.2

section Alike

variable {key : κ} {a b c : Assembler κ}

theorem Alike.refl (key : κ) (assembler : Assembler κ) : Alike key assembler assembler :=
  ⟨rfl, rfl, rfl, rfl⟩

theorem Alike.symm (h : Alike key a b) : Alike key b a :=
  ⟨h.config_eq.symm, h.now_eq.symm, h.sequence_eq.symm, h.closings_eq.symm⟩

theorem Alike.trans (hab : Alike key a b) (hbc : Alike key b c) : Alike key a c :=
  ⟨hab.config_eq.trans hbc.config_eq, hab.now_eq.trans hbc.now_eq,
    hab.sequence_eq.trans hbc.sequence_eq, hab.closings_eq.trans hbc.closings_eq⟩

theorem AlikeResults.trans {a b c : Assembler κ × List (AssemblyEvent κ)}
    (hab : AlikeResults key a b) (hbc : AlikeResults key b c) : AlikeResults key a c :=
  ⟨hab.assemblers.trans hbc.assemblers, hab.events.trans hbc.events⟩

/-- The key has a sequence in both or in neither, and the two sequences are the same but for their
serial numbers. -/
theorem Alike.get?_cases (h : Alike key a b) :
    a.get? key = none ∧ b.get? key = none ∨
      ∃ s t, a.get? key = some s ∧ b.get? key = some t ∧ s.unnumbered = t.unnumbered := by
  have hshown := h.sequence_eq
  unfold shown? at hshown
  cases ha : a.get? key with
  | none =>
    cases hb : b.get? key with
    | none => exact .inl ⟨rfl, rfl⟩
    | some t =>
      rw [ha, hb] at hshown
      cases hshown
  | some s =>
    cases hb : b.get? key with
    | none =>
      rw [ha, hb] at hshown
      cases hshown
    | some t =>
      rw [ha, hb] at hshown
      exact .inr ⟨s, t, rfl, rfl, Option.some.inj hshown⟩

theorem seenBy_timeouts {events : List (AssemblyEvent κ)} {ended : Option (FragmentSequence κ)}
    (h : ofKey key events =
      ended.toList.map (fun sequence => .timeout { sequence with status := .timedOut })) :
    seenBy key events = (ended.map FragmentSequence.unnumbered).toList.map
      (fun sequence => .timeout { sequence with status := .timedOut }) := by
  rw [seenBy, h]
  cases ended <;> rfl

omit [DecidableEq κ] in
theorem ends_congr {s t : Option (FragmentSequence κ)}
    (h : s.map FragmentSequence.unnumbered = t.map FragmentSequence.unnumbered)
    (time : Timestamp) :
    s.toList.map (fun sequence => Closing.mk time sequence.key) =
      t.toList.map (fun sequence => Closing.mk time sequence.key) := by
  have hends (sequence : Option (FragmentSequence κ)) :
      sequence.toList.map (fun sequence => Closing.mk time sequence.key) =
        (sequence.map FragmentSequence.unnumbered).toList.map
          (fun sequence => Closing.mk time sequence.key) := by
    cases sequence <;> rfl
  rw [hends, h, ← hends]

theorem Alike.advance (h : Alike key a b) (ha : a.Regular) (hb : b.Regular) (time : Timestamp) :
    AlikeResults key (a.advance time) (b.advance time) := by
  -- whether a sequence is overdue does not depend on its serial number
  have hshown (p : FragmentSequence κ → Bool) (hp : p ∘ FragmentSequence.unnumbered = p) :
      ((a.get? key).filter p).map FragmentSequence.unnumbered =
        ((b.get? key).filter p).map FragmentSequence.unnumbered := by
    have hfilter := congrArg (Option.filter p) h.sequence_eq
    rwa [shown?, shown?, Option.filter_map, Option.filter_map, hp] at hfilter
  constructor
  · constructor
    · exact h.config_eq
    · rw [now_advance, now_advance, h.now_eq]
    · rw [shown?, shown?, ha.get?_advance, hb.get?_advance, h.now_eq, h.config_eq]
      exact hshown _ rfl
    · rw [ha.closingsOf_advance, hb.closingsOf_advance, h.closings_eq, h.now_eq, h.config_eq,
        ends_congr (hshown _ rfl)]
  · rw [seenBy_timeouts (ha.ofKey_advance key time), seenBy_timeouts (hb.ofKey_advance key time),
      h.now_eq, h.config_eq, hshown _ rfl]

theorem Alike.flush (h : Alike key a b) (ha : a.Regular) (hb : b.Regular) :
    AlikeResults key a.flush b.flush := by
  constructor
  · refine ⟨h.config_eq, h.now_eq, rfl, ?_⟩
    rw [ha.closingsOf_flush, hb.closingsOf_flush, h.closings_eq, h.now_eq,
      ends_congr h.sequence_eq]
  · rw [seenBy_timeouts (ha.ofKey_flush key), seenBy_timeouts (hb.ofKey_flush key)]
    exact congrArg _ (congrArg Option.toList h.sequence_eq)

theorem closingsOf_ensureOpen_of_closed (h : a.get? key = none) (time : Timestamp) :
    (a.ensureOpen key time).1.closingsOf key = [] := by
  rw [ensureOpen_of_closed h, closingsOf, List.filter_eq_nil_iff]
  intro closing hclosing
  simpa using (List.mem_filter.1 hclosing).2

theorem Alike.ensureOpen (h : Alike key a b) (time : Timestamp) :
    AlikeResults key (a.ensureOpen key time) (b.ensureOpen key time) := by
  rcases h.get?_cases with ⟨ha, hb⟩ | ⟨s, t, ha, hb, _⟩
  · constructor
    · constructor
      · rw [config_ensureOpen, config_ensureOpen, h.config_eq]
      · rw [now_ensureOpen, now_ensureOpen, h.now_eq]
      · rw [shown?, shown?, get?_ensureOpen, get?_ensureOpen, ha, hb]
        rfl
      · rw [closingsOf_ensureOpen_of_closed ha, closingsOf_ensureOpen_of_closed hb]
    · rw [seenBy, seenBy, ofKey_ensureOpen_of_closed ha, ofKey_ensureOpen_of_closed hb]
  · rw [ensureOpen_of_open ha, ensureOpen_of_open hb]
    exact ⟨h, rfl⟩

section Add

variable {fragment : Fragment} {s t : FragmentSequence κ}

theorem get?_addFragment_of_covered (hs : a.get? key = some s)
    (hretains : s.retains fragment = false) (hcovered : (s.extended fragment).IsCovered) :
    (a.addFragment key fragment).1.get? key = none := by
  rw [get?_eq_none_iff, (addFragment_of_covered hs hretains hcovered).1]
  intro sequence hsequence
  exact (mem_others.1 hsequence).2

theorem closings_addFragment (hs : a.get? key = some s) (fragment : Fragment) :
    (a.addFragment key fragment).1.closings =
      a.closings ++
        if s.retains fragment = false ∧ (s.extended fragment).IsCovered then [⟨a.now, key⟩]
        else [] := by
  have hkey : (s.extended fragment).key = key := (get?_mem hs).2
  cases hretains : s.retains fragment with
  | true => simp [Assembler.addFragment, hs, FragmentSequence.place_of_retains hretains]
  | false =>
    by_cases hcovered : (s.extended fragment).IsCovered
    · simp [Assembler.addFragment, hs, FragmentSequence.place_of_not_retains hretains, settle,
        hcovered, hkey, close, Assembler.now]
    · simp [Assembler.addFragment, hs, FragmentSequence.place_of_not_retains hretains, settle,
        hcovered]

theorem key_of_addFragment (hs : a.get? key = some s) {event : AssemblyEvent κ}
    (hevent : event ∈ (a.addFragment key fragment).2) : event.key = key := by
  have hkey : (s.extended fragment).key = key := (get?_mem hs).2
  rw [events_addFragment hs] at hevent
  split at hevent
  · cases hevent
  · rcases List.mem_cons.1 hevent with rfl | hevent
    · rfl
    · split at hevent
      · rw [List.mem_singleton.1 hevent]
        exact hkey
      · cases hevent

theorem seenBy_addFragment (hs : a.get? key = some s) (fragment : Fragment) :
    seenBy key (a.addFragment key fragment).2 =
      if s.retains fragment then []
      else .newFragment key fragment.offset fragment.length ::
        if (s.extended fragment).IsCovered then
          [.complete { (s.extended fragment).unnumbered with status := .complete }]
        else [] := by
  rw [seenBy, ofKey_eq_self (fun _ => key_of_addFragment hs), events_addFragment hs]
  split
  · rfl
  · split <;> rfl

theorem Alike.addFragment (h : Alike key a b) (ha : a.DistinctKeys) (hb : b.DistinctKeys)
    (hs : a.get? key = some s) (ht : b.get? key = some t) (fragment : Fragment) :
    AlikeResults key (a.addFragment key fragment) (b.addFragment key fragment) := by
  have hst : s.unnumbered = t.unnumbered := by
    have hshown := h.sequence_eq
    rw [shown?, shown?, hs, ht] at hshown
    exact Option.some.inj hshown
  have hretains : s.retains fragment = t.retains fragment :=
    congrArg (fun sequence => sequence.retains fragment) hst
  have hextended : (s.extended fragment).unnumbered = (t.extended fragment).unnumbered :=
    congrArg (fun sequence => sequence.extended fragment) hst
  have hcovered : (s.extended fragment).IsCovered ↔ (t.extended fragment).IsCovered := by
    change (s.extended fragment).unnumbered.IsCovered ↔ _
    rw [hextended]
    rfl
  constructor
  · constructor
    · rw [(addFragment_frame a _ _).1, (addFragment_frame b _ _).1, h.config_eq]
    · rw [(addFragment_frame a _ _).2, (addFragment_frame b _ _).2, h.now_eq]
    · by_cases hends : s.retains fragment = false ∧ (s.extended fragment).IsCovered
      · rw [shown?, shown?, get?_addFragment_of_covered hs hends.1 hends.2,
          get?_addFragment_of_covered ht (hretains ▸ hends.1) (hcovered.1 hends.2)]
      · have hgrown (hnew : s.retains fragment = false) : ¬ (s.extended fragment).IsCovered :=
          fun hcovered => hends ⟨hnew, hcovered⟩
        have hgrown' (hnew : t.retains fragment = false) : ¬ (t.extended fragment).IsCovered :=
          fun hall => hgrown (hretains.trans hnew) (hcovered.2 hall)
        rw [shown?, shown?, get?_addFragment ha hs hgrown, get?_addFragment hb ht hgrown',
          hretains]
        split
        · exact congrArg some hst
        · exact congrArg some hextended
    · have hclosings := h.closings_eq
      unfold closingsOf at hclosings ⊢
      rw [closings_addFragment hs, closings_addFragment ht, List.filter_append,
        List.filter_append, hclosings, h.now_eq]
      simp only [hretains, hcovered]
  · rw [seenBy_addFragment hs, seenBy_addFragment ht]
    simp only [hretains, hcovered, hextended]

end Add

theorem Alike.insert (h : Alike key a b) (ha : a.Regular) (hb : b.Regular) (fragment : Fragment) :
    AlikeResults key (a.insert key fragment) (b.insert key fragment) := by
  have hadvanced := h.advance ha hb fragment.timestamp
  have hready := hadvanced.assemblers.ensureOpen fragment.timestamp
  have hadded := hready.assemblers.addFragment (ha.distinct.ready key fragment.timestamp)
    (hb.distinct.ready key fragment.timestamp) (a.get?_ready key fragment.timestamp)
    (b.get?_ready key fragment.timestamp) (a.config.stored fragment)
  constructor
  · have hassemblers := hadded.assemblers
    rw [insert_eq, insert_eq, ← h.config_eq]
    exact hassemblers
  · rw [insert_eq, insert_eq, ← h.config_eq, opening, opening, seenBy_append, seenBy_append,
      seenBy_append, seenBy_append, hadvanced.events, hready.events]
    exact congrArg _ hadded.events

end Alike

/-- A sequence for the key is open, or another one may be. -/
def HasRoomFor (assembler : Assembler κ) (key : κ) : Prop :=
  (assembler.get? key).isSome = true ∨ assembler.size < assembler.config.maxSequences

instance (assembler : Assembler κ) (key : κ) : Decidable (assembler.HasRoomFor key) :=
  inferInstanceAs (Decidable (_ ∨ _))

/-- With room for it a sequence is opened without a timeout. -/
theorem HasRoomFor.makeRoom_eq {assembler : Assembler κ} {key : κ} (h : assembler.HasRoomFor key)
    (hclosed : assembler.get? key = none) : assembler.makeRoom = (assembler, []) := by
  refine if_pos (h.resolve_left ?_)
  rw [hclosed]
  exact Bool.false_ne_true

section Other

variable {a : Assembler κ} {key other : κ} (hne : other ≠ key)

include hne

theorem alike_ensureOpen_of_ne (hdistinct : a.DistinctKeys) (hroom : a.HasRoomFor other)
    (time : Timestamp) : AlikeResults key (a.ensureOpen other time) (a, []) := by
  cases hopen : a.get? other with
  | some sequence =>
    rw [ensureOpen_of_open hopen]
    exact ⟨.refl key a, rfl⟩
  | none =>
    have hready := hdistinct.ensureOpen other time
    have hroomy := hroom.makeRoom_eq hopen
    constructor
    · constructor
      · exact config_ensureOpen a other time
      · exact now_ensureOpen a other time
      · refine congrArg _ (get?_congr hready hdistinct ?_)
        intro sequence hkey
        rw [ensureOpen_of_closed hopen, sequences_openSequence, Idle.mem_place, hroomy]
        refine or_iff_right ?_
        rintro rfl
        exact hne hkey
      · rw [ensureOpen_of_closed hopen, openSequence, hroomy]
        change (a.closings.filter _).filter _ = a.closings.filter _
        rw [List.filter_filter]
        refine List.filter_congr ?_
        intro closing _
        by_cases hkey : closing.key = key
        · simp [hkey, Ne.symm hne]
        · simp [hkey]
    · rw [ensureOpen_of_closed hopen, events_openSequence, hroomy]
      have hunseen : ofKey key [.sequenceStart other time] = [] :=
        ofKey_eq_nil (by simpa [AssemblyEvent.key] using hne)
      rw [seenBy, List.nil_append, hunseen]
      rfl

theorem alike_addFragment_of_ne (hdistinct : a.DistinctKeys) {sequence : FragmentSequence κ}
    (hopen : a.get? other = some sequence) (fragment : Fragment) :
    AlikeResults key (a.addFragment other fragment) (a, []) := by
  constructor
  · constructor
    · exact (addFragment_frame a other fragment).1
    · exact (addFragment_frame a other fragment).2
    · exact congrArg _ (get?_addFragment_of_ne hne hdistinct hopen fragment)
    · rw [closingsOf, closings_addFragment hopen, List.filter_append]
      split
      · rw [List.filter_cons_of_neg (by simpa using hne)]
        exact List.append_nil _
      · exact List.append_nil _
  · have hunseen : ofKey key (a.addFragment other fragment).2 = [] :=
      ofKey_eq_nil (fun _ hevent => key_of_addFragment hopen hevent ▸ hne)
    rw [seenBy, hunseen]
    rfl

/-- To the key an insertion for another one is an advance of the clock. -/
theorem alike_insert_of_ne (ha : a.Regular) (fragment : Fragment)
    (hroom : (a.advance fragment.timestamp).1.HasRoomFor other) :
    AlikeResults key (a.insert other fragment) (a.advance fragment.timestamp) := by
  have hopened := alike_ensureOpen_of_ne hne (ha.advance fragment.timestamp).distinct hroom
    fragment.timestamp
  have hadded := alike_addFragment_of_ne hne (ha.distinct.ready other fragment.timestamp)
    (a.get?_ready other fragment.timestamp) (a.config.stored fragment)
  constructor
  · exact hadded.assemblers.trans hopened.assemblers
  · rw [insert_eq, opening, seenBy_append, seenBy_append, hopened.events, hadded.events]
    simp [seenBy]

end Other

def HasRoom (assembler : Assembler κ) : AssemblyOperation κ → Prop
  | .insert key fragment => (assembler.advance fragment.timestamp).1.HasRoomFor key
  | .advance _ => True
  | .flush => True

/-- No sequence is opened in the run while there is no room for another one. -/
def Roomy (assembler : Assembler κ) : List (AssemblyOperation κ) → Prop
  | [] => True
  | operation :: rest => assembler.HasRoom operation ∧ (assembler.apply operation).1.Roomy rest

instance (assembler : Assembler κ) (operation : AssemblyOperation κ) :
    Decidable (assembler.HasRoom operation) :=
  match operation with
  | .insert key fragment =>
    inferInstanceAs (Decidable ((assembler.advance fragment.timestamp).1.HasRoomFor key))
  | .advance _ => isTrue trivial
  | .flush => isTrue trivial

instance decidableRoomy (assembler : Assembler κ) :
    ∀ operations : List (AssemblyOperation κ), Decidable (assembler.Roomy operations)
  | [] => isTrue trivial
  | operation :: rest =>
    have := decidableRoomy (assembler.apply operation).1 rest
    inferInstanceAs (Decidable (_ ∧ _))

end Assembler

/-- The operation without its fragment, if that is for another key: it moves the clock alone. -/
def AssemblyOperation.onlyFor [DecidableEq κ] (key : κ) : AssemblyOperation κ → AssemblyOperation κ
  | .insert other fragment =>
    if other = key then .insert other fragment else .advance fragment.timestamp
  | .advance time => .advance time
  | .flush => .flush

namespace Assembler

variable [DecidableEq κ] {key : κ}

theorem Alike.apply {a b : Assembler κ} (h : Alike key a b) (ha : a.Regular) (hb : b.Regular)
    {operation : AssemblyOperation κ} (hroom : a.HasRoom operation) :
    AlikeResults key (a.apply operation) (b.apply (operation.onlyFor key)) := by
  cases operation with
  | insert other fragment =>
    by_cases hkey : other = key
    · subst hkey
      rw [AssemblyOperation.onlyFor, if_pos rfl]
      exact h.insert ha hb fragment
    · rw [AssemblyOperation.onlyFor, if_neg hkey]
      exact (alike_insert_of_ne hkey ha fragment hroom).trans (h.advance ha hb fragment.timestamp)
  | advance time => exact h.advance ha hb time
  | flush => exact h.flush ha hb

theorem Alike.run {a b : Assembler κ} (h : Alike key a b) (ha : a.Regular) (hb : b.Regular)
    {operations : List (AssemblyOperation κ)} (hroom : a.Roomy operations) :
    Alike key (a.after operations) (b.after (operations.map (·.onlyFor key))) ∧
      (a.calls operations).map (fun call => seenBy key call.events) =
        (b.calls (operations.map (·.onlyFor key))).map (fun call => seenBy key call.events) := by
  induction operations generalizing a b with
  | nil => exact ⟨h, rfl⟩
  | cons operation rest ih =>
    obtain ⟨hfirst, hrest⟩ := hroom
    have hstep := h.apply ha hb hfirst
    obtain ⟨hafter, hcalls⟩ := ih hstep.assemblers (ha.apply operation) (hb.apply _) hrest
    refine ⟨hafter, ?_⟩
    simp only [List.map_cons, calls]
    rw [hstep.events, hcalls]

/-- Fragments for other keys do nothing to a key that moving the clock would not do: it sees the
same events, call by call, and is left with the same open sequence. -/
theorem others_only_move_clock (config : AssemblyConfig) (key : κ)
    (operations : List (AssemblyOperation κ))
    (hroom : (ofConfig config : Assembler κ).Roomy operations) :
    let alone := operations.map (·.onlyFor key)
    ((ofConfig config).calls operations).map (fun call => seenBy key call.events) =
        ((ofConfig config).calls alone).map (fun call => seenBy key call.events) ∧
      ((ofConfig config).after operations).shown? key =
        ((ofConfig config).after alone).shown? key := by
  obtain ⟨hafter, hcalls⟩ := (Alike.refl key (ofConfig config)).run (regular_ofConfig config)
    (regular_ofConfig config) hroom
  exact ⟨hcalls, hafter.sequence_eq⟩

section Interleaved

/-- Room for two sequences, each of which ends after a second. -/
def narrow : AssemblyConfig := { window := .ofSeconds 1, maxSequences := 2 }

/-- Two datagrams whose fragments come in turns. The one under key 7 is completed in between, and
its next sequence times out with the clock of the other one. -/
def interleaved : List (AssemblyOperation Nat) :=
  [.insert 9 (.ofLength 0 8 true .zero), .insert 7 (.ofPayload 2 [3] false .zero),
    .insert 9 (.ofLength 16 8 true (.ofMillis 500)),
    .insert 7 (.ofPayload 0 [1, 2] true (.ofSeconds 1)),
    .insert 7 (.ofLength 0 8 true (.ofSeconds 1)), .insert 9 (.ofLength 0 8 true (.ofSeconds 3)),
    .flush]

theorem interleaved_only_move_clock :
    (ofConfig narrow).Roomy interleaved ∧
      ((ofConfig narrow).calls interleaved).map (fun call => seenBy 7 call.events) =
        ((ofConfig narrow).calls (interleaved.map (·.onlyFor 7))).map
          (fun call => seenBy 7 call.events) ∧
      ((ofConfig narrow).after interleaved).shown? 7 =
        ((ofConfig narrow).after (interleaved.map (·.onlyFor 7))).shown? 7 := by
  have hroom : (ofConfig narrow).Roomy interleaved := by decide
  exact ⟨hroom, others_only_move_clock narrow 7 interleaved hroom⟩

end Interleaved

end Assembler

end Dissection
