import Dissection.Proofs.Reassembly.Ambiguity
import Dissection.Proofs.Reassembly.Indexed.Run

/-!
# What a sequence tells of its fragments

The fragments of a sequence are in the order of their offsets, and those with one offset in the
order in which they arrived. The first last fragment among them tells the length of the datagram,
and the sequence knows when its first fragment came and the latest time of those that it retains.
Unless it is ambiguous, no two of them overlap and all last ones end where the datagram does. All
this holds of every open sequence, and of every sequence that has ended.
-/

namespace Dissection

/-- A fragment is placed behind all others of its offset. -/
theorem Fragment.filter_offset_place (fragment : Fragment) {fragments : List Fragment}
    (h : fragments.Pairwise (fun a b => a.offset ≤ b.offset)) (offset : Nat) :
    (fragment.place fragments).filter (·.offset = offset) =
      (fragments ++ [fragment]).filter (·.offset = offset) := by
  induction fragments with
  | nil => rfl
  | cons other rest ih =>
    obtain ⟨hother, hrest⟩ := List.pairwise_cons.1 h
    by_cases hlt : fragment.offset < other.offset
    · rw [place, if_pos hlt]
      by_cases hoffset : fragment.offset = offset
      · -- all fragments behind the new one have greater offsets
        have hnone : (other :: rest).filter (·.offset = offset) = [] := by
          rw [List.filter_eq_nil_iff]
          intro later hlater
          have hle : other.offset ≤ later.offset := by
            rcases List.mem_cons.1 hlater with rfl | hmem
            · exact Nat.le_refl _
            · exact hother later hmem
          simp only [decide_eq_true_eq]
          omega
        rw [List.filter_append, List.filter_cons_of_pos (by simpa using hoffset), hnone,
          List.filter_cons_of_pos (by simpa using hoffset), List.filter_nil, List.nil_append]
      · rw [List.filter_append, List.filter_cons_of_neg (by simpa using hoffset),
          List.filter_cons_of_neg (l := []) (by simpa using hoffset), List.filter_nil,
          List.append_nil]
    · rw [place, if_neg hlt, List.cons_append, List.filter_cons, List.filter_cons, ih hrest]

/-- Of the fragments of a lifetime, those that are retained, in the order in which they arrived. -/
def AssemblyConfig.retained (config : AssemblyConfig) (life : List Fragment) : List Fragment :=
  Fragment.firsts (life.map config.stored)

variable {κ : Type}

namespace FragmentSequence

/-- The sequence tells what it retains of the fragments of `life`, which were offered to it in this
order. -/
structure Faithful (config : AssemblyConfig) (life : List Fragment)
    (sequence : FragmentSequence κ) : Prop where
  sorted : sequence.fragments.Pairwise (fun a b => a.offset ≤ b.offset)
  /-- Fragments of one offset stand in the order in which they arrived. -/
  in_turn : ∀ offset, sequence.fragments.filter (·.offset = offset) =
    (config.retained life).filter (·.offset = offset)
  distinct : sequence.fragments.Pairwise (fun a b => ¬ (a.offset = b.offset ∧ a.length = b.length))
  /-- The first last fragment tells the length of the datagram. -/
  total_eq : sequence.totalLength =
    ((config.retained life).find? (fun fragment => !fragment.more)).map Fragment.stop
  total_eq_none_iff : sequence.totalLength = none ↔
    ∀ fragment ∈ sequence.fragments, fragment.more = true
  first_at : life.head?.map Fragment.timestamp = some sequence.firstFragmentAt
  last_at : IsLatest Fragment.timestamp sequence.fragments sequence.lastFragmentAt
  apart : sequence.ambiguous = false → sequence.fragments.Pairwise (fun a b => ¬ a.Overlaps b)
  agreed : sequence.ambiguous = false → ∀ final ∈ sequence.fragments, final.more = false →
    sequence.totalLength = some final.stop

/-- How a sequence ended does not matter to what it tells. -/
theorem Faithful.ended {config : AssemblyConfig} {life : List Fragment}
    {sequence : FragmentSequence κ} (h : sequence.Faithful config life) (status : SequenceStatus) :
    Faithful config life { sequence with status := status } :=
  ⟨h.sorted, h.in_turn, h.distinct, h.total_eq, h.total_eq_none_iff, h.first_at, h.last_at,
    h.apart, h.agreed⟩

/-- What a sequence has made of the fragments of `life`, and when they came. -/
structure Chronicles (config : AssemblyConfig) (life : List Fragment)
    (sequence : FragmentSequence κ) : Prop extends Judges config life sequence where
  in_turn : ∀ offset, sequence.fragments.filter (·.offset = offset) =
    (config.retained life).filter (·.offset = offset)
  total_eq : sequence.totalLength =
    ((config.retained life).find? (fun fragment => !fragment.more)).map Fragment.stop
  first_at : life.head?.map Fragment.timestamp = some sequence.firstFragmentAt
  last_at : IsLatest Fragment.timestamp sequence.fragments sequence.lastFragmentAt

/-- A last fragment that comes behind others tells the length of the datagram unless one of them
does. -/
theorem totalAfter_eq {sequence : FragmentSequence κ} (arrived : List Fragment)
    (h : sequence.totalLength =
      (arrived.find? (fun fragment => !fragment.more)).map Fragment.stop)
    (fragment : Fragment) :
    sequence.totalAfter fragment =
      ((arrived ++ [fragment]).find? (fun fragment => !fragment.more)).map Fragment.stop := by
  rw [totalAfter, h, List.find?_append, List.find?_singleton]
  cases hmore : fragment.more <;>
    cases arrived.find? (fun fragment => !fragment.more) <;> simp

theorem Chronicles.first (config : AssemblyConfig) (key : κ) (fragment : Fragment) (serial : Nat) :
    Chronicles config [fragment]
      ((start key fragment.timestamp serial).extended (config.stored fragment)) where
  toJudges := (Judges.start config key fragment.timestamp serial).extended rfl
  in_turn _ := rfl
  total_eq := totalAfter_eq [] rfl (config.stored fragment)
  first_at := rfl
  last_at := by
    have hlatest := isLatest_singleton Fragment.timestamp (config.stored fragment)
    change IsLatest _ _ (max fragment.timestamp (config.stored fragment).timestamp)
    rw [Assembler.timestamp_stored] at hlatest ⊢
    rwa [Timestamp.max_self]

section Chronicles

variable {config : AssemblyConfig} {life : List Fragment} {sequence : FragmentSequence κ}
  (h : sequence.Chronicles config life)

include h

theorem Chronicles.head?_concat (fragment : Fragment) :
    (life ++ [fragment]).head?.map Fragment.timestamp = some sequence.firstFragmentAt := by
  obtain ⟨first, hfirst, htime⟩ := Option.map_eq_some_iff.1 h.first_at
  rw [List.head?_append, hfirst, Option.some_or, Option.map_some, htime]

/-- A duplicate is not retained, and changes no time. -/
theorem Chronicles.duplicate {fragment : Fragment}
    (hretains : sequence.retains (config.stored fragment) = true) :
    sequence.Chronicles config (life ++ [fragment]) := by
  have hretained : config.retained (life ++ [fragment]) = config.retained life :=
    h.firsts_duplicate hretains
  constructor
  case toJudges => exact h.toJudges.duplicate hretains
  case in_turn => exact hretained ▸ h.in_turn
  case total_eq => exact hretained ▸ h.total_eq
  case first_at => exact h.head?_concat fragment
  case last_at => exact h.last_at

theorem Chronicles.extended {fragment : Fragment}
    (hretains : sequence.retains (config.stored fragment) = false) :
    (sequence.extended (config.stored fragment)).Chronicles config (life ++ [fragment]) := by
  have hretained : config.retained (life ++ [fragment]) =
      config.retained life ++ [config.stored fragment] := h.firsts_extended hretains
  constructor
  case toJudges => exact h.toJudges.extended hretains
  case in_turn =>
    intro offset
    have hplaced := (config.stored fragment).filter_offset_place h.sorted offset
    rw [List.filter_append, h.in_turn offset, ← List.filter_append, ← hretained] at hplaced
    exact hplaced
  case total_eq =>
    rw [hretained]
    exact totalAfter_eq _ h.total_eq (config.stored fragment)
  case first_at => exact h.head?_concat fragment
  case last_at => exact h.last_at.cons (Fragment.perm_place _ _)

theorem Chronicles.total_eq_none_iff :
    sequence.totalLength = none ↔ ∀ fragment ∈ sequence.fragments, fragment.more = true := by
  rw [h.total_eq, Option.map_eq_none_iff, List.find?_eq_none, AssemblyConfig.retained]
  simp only [Bool.not_eq_true', Bool.not_eq_false, h.perm.mem_iff]

/-- Fragments that do not clash with earlier ones do not overlap. -/
theorem Chronicles.apart (hclear : sequence.ambiguous = false) :
    sequence.fragments.Pairwise (fun a b => ¬ a.Overlaps b) := by
  refine h.perm.pairwise_iff (fun hne hoverlaps => hne hoverlaps.symm) |>.2 ?_
  exact (h.clear_iff.1 hclear).imp (fun hne hoverlaps => hne (.inl hoverlaps))

theorem Chronicles.faithful : sequence.Faithful config life where
  sorted := h.sorted
  in_turn := h.in_turn
  distinct := h.distinct
  total_eq := h.total_eq
  total_eq_none_iff := h.total_eq_none_iff
  first_at := h.first_at
  last_at := h.last_at
  apart := h.apart
  agreed := h.agrees

end Chronicles

end FragmentSequence

namespace Assembler

section TimedOut

variable {assembler : Assembler κ} {sequence : FragmentSequence κ}

theorem timeout_of_advance {time : Timestamp}
    (h : .timeout sequence ∈ (assembler.advance time).2) :
    ∃ collected ∈ assembler.sequences, sequence = { collected with status := .timedOut } := by
  rw [events_advance] at h
  obtain ⟨collected, hcollected, heq⟩ := List.mem_map.1 h
  exact ⟨collected, (List.takeWhile_sublist _).mem hcollected, (AssemblyEvent.timeout.inj heq).symm⟩

variable [DecidableEq κ]

theorem timeout_of_ensureOpen {key : κ} {time : Timestamp}
    (h : .timeout sequence ∈ (assembler.ensureOpen key time).2) :
    ∃ collected ∈ assembler.sequences, sequence = { collected with status := .timedOut } := by
  cases hopen : assembler.get? key with
  | some found =>
    rw [ensureOpen_of_open hopen] at h
    cases h
  | none =>
    rw [ensureOpen_of_closed hopen, events_openSequence, List.mem_append] at h
    rcases h with hevicted | hstarted
    · obtain ⟨collected, hcollected, heq⟩ := assembler.events_makeRoom _ hevicted
      exact ⟨collected, hcollected, AssemblyEvent.timeout.inj heq⟩
    · cases List.mem_singleton.1 hstarted

/-- What times out was open before the operation. -/
theorem timeout_of_apply {operation : AssemblyOperation κ}
    (h : .timeout sequence ∈ (assembler.apply operation).2) :
    ∃ collected ∈ assembler.sequences, sequence = { collected with status := .timedOut } := by
  cases operation with
  | advance time => exact timeout_of_advance h
  | flush =>
    obtain ⟨collected, hcollected, heq⟩ := List.mem_map.1 h
    exact ⟨collected, (perm_inOpeningOrder assembler.sequences).subset hcollected,
      (AssemblyEvent.timeout.inj heq).symm⟩
  | insert key fragment =>
    simp only [apply, events_insert, opening, List.mem_append] at h
    rcases h with (hswept | hroom) | hreported
    · exact timeout_of_advance hswept
    · obtain ⟨collected, hcollected, heq⟩ := timeout_of_ensureOpen hroom
      exact ⟨collected,
        (assembler.sequences_advance_sublist fragment.timestamp).mem hcollected, heq⟩
    · unfold reported at hreported
      split at hreported
      · cases hreported
      · split at hreported <;> simp at hreported

end TimedOut

variable [DecidableEq κ] (config : AssemblyConfig) (operations : List (AssemblyOperation κ))

theorem chronicles_after :
    ((ofConfig config).after operations).Follows (FragmentSequence.Chronicles config)
      ((ofConfig config).calls operations) :=
  follows_of_first (FragmentSequence.Chronicles.first config) (fun _ _ _ h => h.duplicate)
    (fun _ _ _ h => h.extended) operations

theorem faithful_of_open {key : κ} {sequence : FragmentSequence κ}
    (h : ((ofConfig config).after operations).get? key = some sequence) :
    sequence.Faithful config (AssemblyCall.lifetime key ((ofConfig config).calls operations)) := by
  obtain ⟨hmem, rfl⟩ := get?_mem h
  exact (chronicles_after config operations sequence hmem).faithful

section Ended

variable {operation : AssemblyOperation κ} {sequence : FragmentSequence κ}

/-- What times out tells of the fragments that were offered to it before. -/
theorem faithful_of_timeout
    (h : .timeout sequence ∈ (((ofConfig config).after operations).apply operation).2) :
    sequence.Faithful config
      (AssemblyCall.lifetime sequence.key ((ofConfig config).calls operations)) := by
  obtain ⟨collected, hmem, rfl⟩ := timeout_of_apply h
  exact (chronicles_after config operations collected hmem).faithful.ended .timedOut

/-- What is complete tells of its last fragment as well. -/
theorem faithful_of_complete
    (h : .complete sequence ∈ (((ofConfig config).after operations).apply operation).2) :
    sequence.Faithful config
      (AssemblyCall.lifetime sequence.key
        ((ofConfig config).calls (operations ++ [operation]))) := by
  obtain ⟨key, fragment, rfl, hrepeats, _, hsequence⟩ := complete_of_apply h
  have hkey : sequence.key = key := by
    rw [hsequence]
    exact key_grown _ key fragment
  have hgrown := (chronicles_after config operations).grown
    (FragmentSequence.Chronicles.first config) (fun _ _ _ h => h.extended)
    (config_after (ofConfig config) operations) hrepeats
  rw [calls_concat, hkey, hsequence]
  exact hgrown.faithful.ended .complete

end Ended

end Assembler

namespace IndexedAssembler

variable [DecidableEq κ]

open Assembler (regular_after inOrder_after)

/-- After every run each open sequence tells faithfully of the lifetime of its key, and so does each
sequence that one more operation times out or completes. -/
theorem faithful_of_run (config : AssemblyConfig) (operations : List (AssemblyOperation κ)) :
    let indexed := (ofConfig config).after operations
    let calls := (ofConfig config).calls operations
    (∀ key sequence, indexed.get? key = some sequence →
      sequence.Faithful config (AssemblyCall.lifetime key calls)) ∧
    ∀ operation, let events := (indexed.apply operation).2
      (∀ sequence, .timeout sequence ∈ events →
        sequence.Faithful config (AssemblyCall.lifetime sequence.key calls)) ∧
      ∀ sequence, .complete sequence ∈ events →
        sequence.Faithful config
          (AssemblyCall.lifetime sequence.key (calls ++ [⟨operation, events⟩])) := by
  intro indexed calls
  have h : indexed.Represents ((Assembler.ofConfig config).after operations) :=
    represents_after config operations
  have horder := inOrder_after config operations
  have hcalls : calls = (Assembler.ofConfig config).calls operations := calls_eq config operations
  rw [hcalls]
  refine ⟨?_, ?_⟩
  · intro key sequence hopen
    rw [h.get?_eq horder.distinct] at hopen
    exact Assembler.faithful_of_open config operations hopen
  · intro operation events
    have hevents : events = (((Assembler.ofConfig config).after operations).apply operation).2 :=
      (h.apply (regular_after config operations) horder operation).events
    rw [hevents, ← Assembler.calls_concat]
    exact ⟨fun _ hended => Assembler.faithful_of_timeout config operations hended,
      fun _ hended => Assembler.faithful_of_complete config operations hended⟩

section OutOfOrder

/-- The end of a datagram, its beginning, an empty fragment at the end, and the end again, but as if
more followed. -/
def outOfOrderFragments : List Fragment :=
  [.ofLength 8 4 false (.ofSeconds 5), .ofLength 0 4 true (.ofSeconds 3),
    .ofLength 8 0 true (.ofSeconds 4), .ofLength 8 4 true (.ofSeconds 9)]

def outOfOrder : List (AssemblyOperation Nat) := outOfOrderFragments.map (.insert 7)

def outOfOrderSequence : FragmentSequence Nat :=
  { key := 7
    fragments := [.ofLength 0 4 true (.ofSeconds 3), .ofLength 8 4 false (.ofSeconds 5),
      .ofLength 8 0 true (.ofSeconds 4)]
    totalLength := some 12
    status := .collecting
    ambiguous := false
    firstFragmentAt := .ofSeconds 5
    lastFragmentAt := .ofSeconds 5
    serial := 0 }

theorem outOfOrder_faithful :
    ((ofConfig {}).after outOfOrder).get? 7 = some outOfOrderSequence ∧
      outOfOrderSequence.Faithful {} outOfOrderFragments := by
  have hopen : ((ofConfig {}).after outOfOrder).get? 7 = some outOfOrderSequence := by
    decide +kernel
  have hlife : AssemblyCall.lifetime 7 ((ofConfig {}).calls outOfOrder) = outOfOrderFragments := by
    decide +kernel
  exact ⟨hopen, hlife ▸ (faithful_of_run {} outOfOrder).1 7 outOfOrderSequence hopen⟩

end OutOfOrder

end IndexedAssembler

end Dissection
