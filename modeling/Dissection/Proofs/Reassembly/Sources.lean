import Dissection.Proofs.Reassembly.Completion

/-!
# The sources of a datagram

All fragments of a sequence were inserted for its key. When it completes, all last fragments among
them end where the datagram does, and there is one.
-/

namespace Dissection

variable {κ : Type}

namespace FragmentSequence

/-- Unless the sequence is ambiguous, every last fragment tells the length of the datagram. -/
def Agrees (sequence : FragmentSequence κ) : Prop :=
  sequence.ambiguous = false → ∀ final ∈ sequence.fragments, final.more = false →
    sequence.totalLength = some final.stop

theorem agrees_start (key : κ) (time : Timestamp) (serial : Nat) :
    (start key time serial).Agrees :=
  fun _ _ h => nomatch h

theorem Agrees.extended {sequence : FragmentSequence κ} (h : sequence.Agrees)
    (fragment : Fragment) : (sequence.extended fragment).Agrees := by
  intro hclear final hfinal hlast
  obtain ⟨hearlier, hcontradicted⟩ := Bool.or_eq_false_iff.1 hclear
  obtain ⟨hambiguous, _⟩ := Bool.or_eq_false_iff.1 hearlier
  obtain ⟨hother, _⟩ := Bool.or_eq_false_iff.1 hcontradicted
  change sequence.totalAfter fragment = some final.stop
  rcases Fragment.mem_place.1 hfinal with rfl | hmem
  · rw [totalAfter, hlast, if_neg Bool.false_ne_true]
    cases htotal : sequence.totalLength with
    | none => rfl
    | some total => simpa [hlast, htotal] using hother
  · rw [totalAfter, h hambiguous final hmem hlast]
    split <;> rfl

/-- Where the fragments of a complete sequence come from and how they tell its length. -/
structure Sourced (sequence : FragmentSequence κ) (config : AssemblyConfig)
    (operations : List (AssemblyOperation κ)) : Prop where
  inserted : ∀ fragment ∈ sequence.fragments, ∃ offered,
    .insert sequence.key offered ∈ operations ∧ config.stored offered = fragment
  told : ∃ final ∈ sequence.fragments, final.more = false
  agreed : ∀ final ∈ sequence.fragments, final.more = false →
    sequence.totalLength = some final.stop

theorem Collects.sourced {config : AssemblyConfig} {life : List Fragment}
    {sequence : FragmentSequence κ} {operations : List (AssemblyOperation κ)}
    (h : sequence.Collects config life) (hagrees : sequence.Agrees)
    (hcovered : sequence.IsCovered)
    (hlife : ∀ offered ∈ life, .insert sequence.key offered ∈ operations) :
    Sourced { sequence with status := .complete } config operations := by
  obtain ⟨hclear, total, htotal, _⟩ := hcovered
  constructor
  · intro fragment hfragment
    obtain ⟨first, hfirst, hstored⟩ := h.first_of_range fragment hfragment
    exact ⟨first, hlife first (List.mem_of_find?_eq_some hfirst), hstored⟩
  · obtain ⟨final, hfinal, hlast, _⟩ := h.total_is_end total htotal
    exact ⟨final, hfinal, hlast⟩
  · exact hagrees hclear

end FragmentSequence

namespace Assembler

variable [DecidableEq κ]

def Every (property : FragmentSequence κ → Prop) (assembler : Assembler κ) : Prop :=
  ∀ sequence ∈ assembler.sequences, property sequence

section Every

variable {property : FragmentSequence κ → Prop}
  (hstart : ∀ key time serial, property (.start key time serial))
  (hextended : ∀ sequence fragment, property sequence → property (sequence.extended fragment))

include hstart

theorem Every.target {assembler : Assembler κ} (h : assembler.Every property) (key : κ)
    (time : Timestamp) : property (assembler.target key time) := by
  rw [Assembler.target]
  cases hopen : (assembler.advance time).1.get? key with
  | none => exact hstart key time _
  | some sequence =>
    exact h sequence ((assembler.sequences_advance_sublist time).mem (get?_mem hopen).1)

include hextended

theorem Every.apply {assembler : Assembler κ} (h : assembler.Every property)
    (hdistinct : assembler.DistinctKeys) (operation : AssemblyOperation κ) :
    (assembler.apply operation).1.Every property := by
  cases operation with
  | insert key fragment =>
    intro sequence hsequence
    have htarget := Every.target hstart h key fragment.timestamp
    rcases mem_sequences_insert hdistinct hsequence with ⟨hmem, _⟩ | ⟨_, rfl⟩ | ⟨_, rfl⟩
    · exact h sequence hmem
    · exact htarget
    · exact hextended _ _ htarget
  | advance time =>
    intro sequence hsequence
    exact h sequence ((assembler.sequences_advance_sublist time).mem hsequence)
  | flush =>
    intro sequence hsequence
    cases hsequence

/-- What holds of a new sequence and is kept by every fragment holds of all open ones. -/
theorem every_after (config : AssemblyConfig) (operations : List (AssemblyOperation κ)) :
    ((ofConfig config).after operations).Every property :=
  (run_induction
    (motive := fun current _ => current.DistinctKeys ∧ current.Every property)
    (ofConfig config) ⟨.nil, fun _ h => nomatch h⟩
    (fun _ _ operation h => ⟨h.1.apply operation, Every.apply hstart hextended h.2 h.1 operation⟩)
    operations).2

end Every

/-- Every call is an operation on what the earlier ones left. -/
theorem exists_operation_of_call {assembler : Assembler κ}
    {operations : List (AssemblyOperation κ)} {call : AssemblyCall κ}
    (h : call ∈ assembler.calls operations) :
    ∃ earlier operation later, operations = earlier ++ operation :: later ∧
      call.events = ((assembler.after earlier).apply operation).2 := by
  induction operations generalizing assembler with
  | nil => cases h
  | cons first rest ih =>
    rcases List.mem_cons.1 h with rfl | hmem
    · exact ⟨[], first, rest, rfl, rfl⟩
    · obtain ⟨earlier, operation, later, rfl, hevents⟩ := ih hmem
      exact ⟨first :: earlier, operation, later, rfl, hevents⟩

/-- What an insertion makes of its target collects the fragments inserted for the key. -/
theorem collects_grown (config : AssemblyConfig) (operations : List (AssemblyOperation κ))
    {key : κ} {fragment : Fragment}
    (hrepeats : ((ofConfig config).after operations).repeats key fragment = false) :
    (((ofConfig config).after operations).grown key fragment).Collects config
      (AssemblyCall.lifetime key
        ((ofConfig config).calls (operations ++ [.insert key fragment]))) := by
  have htarget := ((tracks_after config operations).target key fragment).extended hrepeats
  rw [config_after] at htarget
  rw [calls_concat, AssemblyCall.lifetime_concat, AssemblyCall.offered, grown, config_after]
  simp only [if_true]
  exact htarget

theorem agrees_grown (config : AssemblyConfig) (operations : List (AssemblyOperation κ)) (key : κ)
    (fragment : Fragment) : (((ofConfig config).after operations).grown key fragment).Agrees := by
  have hall := every_after (κ := κ) FragmentSequence.agrees_start
    (fun _ fragment h => h.extended fragment) config operations
  exact (hall.target FragmentSequence.agrees_start key fragment.timestamp).extended _

theorem inserted_of_lifetime {assembler : Assembler κ} {operations : List (AssemblyOperation κ)}
    {key : κ} {fragment : Fragment}
    (h : fragment ∈ AssemblyCall.lifetime key (assembler.calls operations)) :
    .insert key fragment ∈ operations := by
  obtain ⟨call, hcall, hoperation⟩ := AssemblyCall.mem_lifetime h
  exact hoperation ▸ operation_of_mem_calls hcall

theorem sourced_of_apply (config : AssemblyConfig) (operations : List (AssemblyOperation κ))
    {operation : AssemblyOperation κ} {done : FragmentSequence κ}
    (h : .complete done ∈ (((ofConfig config).after operations).apply operation).2) :
    done.Sourced config (operations ++ [operation]) := by
  obtain ⟨key, fragment, rfl, hrepeats, hcovered, rfl⟩ := complete_of_apply h
  refine (collects_grown config operations hrepeats).sourced
    (agrees_grown config operations key fragment) hcovered ?_
  intro offered hoffered
  rw [key_grown]
  exact inserted_of_lifetime hoffered

/-- A complete sequence has its fragments from insertions for its key. -/
theorem sourced_of_call {config : AssemblyConfig} {operations : List (AssemblyOperation κ)}
    {call : AssemblyCall κ} (hcall : call ∈ (ofConfig config).calls operations)
    {done : FragmentSequence κ} (h : .complete done ∈ call.events) :
    done.Sourced config operations := by
  obtain ⟨earlier, operation, later, rfl, hevents⟩ := exists_operation_of_call hcall
  rw [hevents] at h
  have hsourced := sourced_of_apply config earlier h
  constructor
  · intro fragment hfragment
    obtain ⟨offered, hoffered, hstored⟩ := hsourced.inserted fragment hfragment
    refine ⟨offered, ?_, hstored⟩
    rw [List.append_cons]
    exact List.mem_append_left later hoffered
  · exact hsourced.told
  · exact hsourced.agreed

end Assembler

end Dissection
