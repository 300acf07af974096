import Dissection.Proofs.Reassembly.Run

/-!
# Lifetimes

The lifetime of a key's sequence is what the calls of a run tell of it: the fragments inserted for
the key from the call that reported its start. After every run each open sequence collects its own
lifetime, however often earlier sequences of its key were completed, timed out or evicted.
-/

namespace Dissection

variable {κ : Type} [DecidableEq κ]

def AssemblyEvent.isStartOf (key : κ) : AssemblyEvent κ → Bool
  | .sequenceStart started _ => started = key
  | _ => false

namespace AssemblyCall

def starts (call : AssemblyCall κ) (key : κ) : Bool := call.events.any (·.isStartOf key)

/-- What a sequence of the key was offered before the call, given what was offered to the one
before. -/
def offeredBefore (call : AssemblyCall κ) (key : κ) (life : List Fragment) : List Fragment :=
  if call.starts key then [] else life

/-- What the sequence of the key has been offered after the call. -/
def offered (call : AssemblyCall κ) (key : κ) (life : List Fragment) : List Fragment :=
  match call.operation with
  | .insert other fragment =>
    if other = key then call.offeredBefore key life ++ [fragment] else life
  | .advance _ => life
  | .flush => life

/-- The fragments offered to the latest sequence of a key, in order. -/
def lifetime (key : κ) (calls : List (AssemblyCall κ)) : List Fragment :=
  calls.foldl (fun life call => call.offered key life) []

theorem lifetime_concat (key : κ) (calls : List (AssemblyCall κ)) (call : AssemblyCall κ) :
    lifetime key (calls ++ [call]) = call.offered key (lifetime key calls) := by
  simp [lifetime]

end AssemblyCall

namespace Assembler

/-- Expiry and eviction report timeouts alone. -/
theorem not_isStartOf_timeouts {events : List (AssemblyEvent κ)}
    (h : ∀ event ∈ events, ∃ sequence, event = .timeout sequence) (key : κ) :
    events.any (·.isStartOf key) = false := by
  rw [List.any_eq_false]
  intro event hevent
  obtain ⟨sequence, rfl⟩ := h event hevent
  simp [AssemblyEvent.isStartOf]

/-- An insertion reports the start of a sequence exactly when its key had none. -/
theorem starts_insert (assembler : Assembler κ) (key : κ) (fragment : Fragment) :
    (AssemblyCall.mk (.insert key fragment) (assembler.insert key fragment).2).starts key =
      ((assembler.advance fragment.timestamp).1.get? key).isNone := by
  have hadvance := not_isStartOf_timeouts
    (assembler.events_advance_timeout fragment.timestamp) key
  have hreported : (assembler.reported key fragment).any (·.isStartOf key) = false := by
    unfold reported
    split
    · rfl
    · split <;> rfl
  rw [AssemblyCall.starts, events_insert, opening, List.any_append, List.any_append, hadvance,
    hreported, Bool.false_or, Bool.or_false]
  cases hopen : (assembler.advance fragment.timestamp).1.get? key with
  | some sequence =>
    rw [ensureOpen_of_open hopen]
    rfl
  | none =>
    rw [ensureOpen_of_closed hopen, events_openSequence]
    simp [AssemblyEvent.isStartOf]

section Follows

variable {relation : List Fragment → FragmentSequence κ → Prop}

/-- Every open sequence stands in a relation to the lifetime of its key. -/
def Follows (relation : List Fragment → FragmentSequence κ → Prop) (assembler : Assembler κ)
    (calls : List (AssemblyCall κ)) : Prop :=
  ∀ sequence ∈ assembler.sequences,
    relation (AssemblyCall.lifetime sequence.key calls) sequence

/-- The open sequence to which an insertion adds its fragment stands in the relation to what its key
was offered before. -/
theorem Follows.target_of_open {assembler : Assembler κ} {calls : List (AssemblyCall κ)}
    (h : assembler.Follows relation calls) {key : κ} {fragment : Fragment}
    {sequence : FragmentSequence κ}
    (hopen : (assembler.advance fragment.timestamp).1.get? key = some sequence) :
    relation
      ((AssemblyCall.mk (.insert key fragment) (assembler.insert key fragment).2).offeredBefore
        key (AssemblyCall.lifetime key calls))
      sequence := by
  obtain ⟨hmem, hkey⟩ := get?_mem hopen
  have hfollows := h sequence ((assembler.sequences_advance_sublist _).mem hmem)
  rw [hkey] at hfollows
  rw [AssemblyCall.offeredBefore, starts_insert, hopen]
  exact hfollows

/-- The sequence to which an insertion adds its fragment stands in the relation to what its key was
offered before, when new sequences do. -/
theorem Follows.target (hstart : ∀ key time serial, relation [] (.start key time serial))
    {assembler : Assembler κ} {calls : List (AssemblyCall κ)}
    (h : assembler.Follows relation calls) (key : κ) (fragment : Fragment) :
    relation
      ((AssemblyCall.mk (.insert key fragment) (assembler.insert key fragment).2).offeredBefore
        key (AssemblyCall.lifetime key calls))
      (assembler.target key fragment.timestamp) := by
  cases hopen : (assembler.advance fragment.timestamp).1.get? key with
  | none =>
    rw [AssemblyCall.offeredBefore, starts_insert, Assembler.target, hopen]
    exact hstart key fragment.timestamp _
  | some sequence =>
    rw [Assembler.target, hopen]
    exact h.target_of_open hopen

section Offered

variable {config : AssemblyConfig}
  (hfirst : ∀ key fragment serial, relation [fragment]
    ((FragmentSequence.start key fragment.timestamp serial).extended (config.stored fragment)))
  (hduplicate : ∀ life sequence fragment, relation life sequence →
    sequence.retains (config.stored fragment) = true → relation (life ++ [fragment]) sequence)
  (hextended : ∀ life sequence fragment, relation life sequence →
    sequence.retains (config.stored fragment) = false →
    relation (life ++ [fragment]) (sequence.extended (config.stored fragment)))

include hfirst hextended

/-- What an insertion makes of its target stands in the relation to the lifetime of its key. -/
theorem Follows.grown {assembler : Assembler κ} {calls : List (AssemblyCall κ)}
    (h : assembler.Follows relation calls) (hconfig : assembler.config = config) {key : κ}
    {fragment : Fragment} (hrepeats : assembler.repeats key fragment = false) :
    relation
      (AssemblyCall.lifetime key
        (calls ++ [⟨.insert key fragment, (assembler.insert key fragment).2⟩]))
      (assembler.grown key fragment) := by
  subst hconfig
  rw [AssemblyCall.lifetime_concat, AssemblyCall.offered]
  simp only [if_true]
  cases hopen : (assembler.advance fragment.timestamp).1.get? key with
  | none =>
    rw [AssemblyCall.offeredBefore, starts_insert, Assembler.grown, Assembler.target, hopen]
    exact hfirst key fragment _
  | some sequence =>
    rw [repeats, Assembler.target, hopen] at hrepeats
    rw [Assembler.grown, Assembler.target, hopen]
    exact hextended _ _ _ (h.target_of_open hopen) hrepeats

include hduplicate

theorem Follows.insert {assembler : Assembler κ} {calls : List (AssemblyCall κ)}
    (h : assembler.Follows relation calls) (hconfig : assembler.config = config)
    (hdistinct : assembler.DistinctKeys) (key : κ) (fragment : Fragment) :
    (assembler.insert key fragment).1.Follows relation
      (calls ++ [⟨.insert key fragment, (assembler.insert key fragment).2⟩]) := by
  intro sequence hsequence
  rcases mem_sequences_insert hdistinct hsequence with
    ⟨hmem, hother⟩ | ⟨hrepeats, rfl⟩ | ⟨hrepeats, rfl⟩
  · rw [AssemblyCall.lifetime_concat, AssemblyCall.offered]
    simp only [if_neg (Ne.symm hother)]
    exact h sequence hmem
  · have htarget := h.target_of_open (exists_open_of_repeats hrepeats)
    subst hconfig
    rw [AssemblyCall.lifetime_concat, AssemblyCall.offered]
    simp only [key_target, if_true]
    exact hduplicate _ _ _ htarget hrepeats
  · rw [key_grown]
    exact h.grown hfirst hextended hconfig hrepeats

theorem Follows.apply {assembler : Assembler κ} {calls : List (AssemblyCall κ)}
    (h : assembler.Follows relation calls) (hconfig : assembler.config = config)
    (hdistinct : assembler.DistinctKeys) (operation : AssemblyOperation κ) :
    (assembler.apply operation).1.Follows relation
      (calls ++ [⟨operation, (assembler.apply operation).2⟩]) := by
  cases operation with
  | insert key fragment => exact h.insert hfirst hduplicate hextended hconfig hdistinct key fragment
  | advance time =>
    intro sequence hsequence
    rw [AssemblyCall.lifetime_concat]
    exact h sequence ((assembler.sequences_advance_sublist time).mem hsequence)
  | flush =>
    intro sequence hsequence
    cases hsequence

/-- What holds of a sequence with its first fragment and is kept by every fragment offered to it
holds after every run. -/
theorem follows_of_first (operations : List (AssemblyOperation κ)) :
    ((ofConfig config).after operations).Follows relation ((ofConfig config).calls operations) := by
  have hrun := run_induction
    (motive := fun current calls =>
      current.config = config ∧ current.DistinctKeys ∧ current.Follows relation calls)
    (ofConfig config) ⟨rfl, .nil, fun _ h => nomatch h⟩ ?_ operations
  · exact hrun.2.2
  · rintro current calls operation ⟨hconfig, hdistinct, h⟩
    exact ⟨(config_apply current operation).trans hconfig, hdistinct.apply operation,
      h.apply hfirst hduplicate hextended hconfig hdistinct operation⟩

end Offered

/-- What holds of a new sequence and is kept by every fragment offered to it holds after every
run. -/
theorem follows_after {config : AssemblyConfig}
    (hstart : ∀ key time serial, relation [] (.start key time serial))
    (hduplicate : ∀ life sequence fragment, relation life sequence →
      sequence.retains (config.stored fragment) = true → relation (life ++ [fragment]) sequence)
    (hextended : ∀ life sequence fragment, relation life sequence →
      sequence.retains (config.stored fragment) = false →
      relation (life ++ [fragment]) (sequence.extended (config.stored fragment)))
    (operations : List (AssemblyOperation κ)) :
    ((ofConfig config).after operations).Follows relation ((ofConfig config).calls operations) :=
  follows_of_first
    (fun key fragment serial => hextended [] _ fragment (hstart key fragment.timestamp serial) rfl)
    hduplicate hextended operations

end Follows

def Tracks (assembler : Assembler κ) (calls : List (AssemblyCall κ)) : Prop :=
  ∀ sequence ∈ assembler.sequences,
    sequence.Collects assembler.config (AssemblyCall.lifetime sequence.key calls)

/-- The sequence to which an insertion adds its fragment collects what its key was offered. -/
theorem Tracks.target {assembler : Assembler κ} {calls : List (AssemblyCall κ)}
    (h : assembler.Tracks calls) (key : κ) (fragment : Fragment) :
    (assembler.target key fragment.timestamp).Collects assembler.config
      ((AssemblyCall.mk (.insert key fragment) (assembler.insert key fragment).2).offeredBefore
        key (AssemblyCall.lifetime key calls)) := by
  have hfollows : assembler.Follows (FragmentSequence.Collects assembler.config) calls := h
  exact hfollows.target (FragmentSequence.Collects.start assembler.config) key fragment

theorem tracks_after (config : AssemblyConfig) (operations : List (AssemblyOperation κ)) :
    ((ofConfig config).after operations).Tracks ((ofConfig config).calls operations) := by
  have hfollows := follows_after (FragmentSequence.Collects.start config)
    (fun _ _ _ h => h.duplicate) (fun _ _ _ h => h.extended) operations
  intro sequence hsequence
  rw [config_after]
  exact hfollows sequence hsequence

end Assembler

end Dissection
