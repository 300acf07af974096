import Dissection.Proofs.Reassembly.Lifetime
import Mathlib.Data.List.Find

/-!
# Completion

A sequence completes only when the fragments of its lifetime leave one reading of the datagram:
those that share a byte have the same range, and of each range the first is retained. The retained
fragments then tile the datagram, whose length a last fragment among them tells, and every byte is
that of the first fragment offered for its position.
-/

namespace Dissection

namespace FragmentSequence

variable {κ : Type}

/-- What is known of a complete sequence to which the fragments of `life` were offered. -/
structure Completed (sequence : FragmentSequence κ) (config : AssemblyConfig)
    (life : List Fragment) (total : Nat) : Prop where
  status_eq : sequence.status = .complete
  clear : sequence.ambiguous = false
  total_eq : sequence.totalLength = some total
  starts : sequence.fragments.head?.map Fragment.offset = some 0
  consecutive : sequence.fragments.IsChain (fun a b => b.offset = a.stop)
  ends : sequence.fragments.getLast?.map Fragment.stop = some total
  told : ∃ fragment ∈ sequence.fragments, fragment.more = false ∧ fragment.stop = total
  one_range : ∀ a ∈ life, ∀ b ∈ life, ∀ position,
    a.Covers position → b.Covers position → a.SameRange b
  bytes : config.retainPayload = true →
    (∀ fragment ∈ sequence.fragments, fragment.payload.isSome = true) →
    ∃ bytes, sequence.reassemble = some bytes ∧ bytes.length = total ∧
      ∀ position < total, ∃ fragment, life.find? (·.Covers position) = some fragment ∧
        bytes[position]? = fragment.byteAt? position

variable {config : AssemblyConfig} {life : List Fragment} {sequence : FragmentSequence κ}
  {start stop : Nat}

/-- Fragments that share a byte have one range when the retained ones are a tiling. -/
theorem Collects.sameRange_of_shared (h : sequence.Collects config life)
    (htile : Fragment.Tile start stop sequence.fragments) {a b : Fragment} (ha : a ∈ life)
    (hb : b ∈ life) {position : Nat} (hacovers : a.Covers position)
    (hbcovers : b.Covers position) : a.SameRange b := by
  obtain ⟨x, hx, hxa⟩ := h.range_retained a ha
  obtain ⟨y, hy, hyb⟩ := h.range_retained b hb
  have heq := htile.eq_of_shared hx hy ((hxa.covers_iff position).2 hacovers)
    ((hyb.covers_iff position).2 hbcovers)
  subst heq
  exact hxa.symm.trans hyb

/-- In a tiling, the first fragment offered for a byte is the one retained. -/
theorem Collects.find?_covers (h : sequence.Collects config life)
    (htile : Fragment.Tile start stop sequence.fragments) {fragment : Fragment}
    (hfragment : fragment ∈ sequence.fragments) {position : Nat}
    (hcovers : fragment.Covers position) :
    ∃ first, life.find? (·.Covers position) = some first ∧ config.stored first = fragment := by
  obtain ⟨first, hfirst, hstored⟩ := h.first_of_range fragment hfragment
  refine ⟨first, ?_, hstored⟩
  rw [← hfirst]
  refine List.find?_congr ?_
  intro offered hoffered
  obtain ⟨retained, hretained, hrange⟩ := h.range_retained offered hoffered
  rw [decide_eq_decide]
  constructor
  · intro hoffcovers
    have heq := htile.eq_of_shared hretained hfragment
      ((hrange.covers_iff position).2 hoffcovers) hcovers
    exact heq ▸ hrange.symm
  · intro hsame
    exact (hsame.covers_iff position).2 hcovers

theorem Collects.built (h : sequence.Collects config life) (hretain : config.retainPayload = true)
    (hbuilt : ∀ offered ∈ life, offered.Built) :
    ∀ fragment ∈ sequence.fragments, fragment.Built := by
  intro fragment hfragment
  obtain ⟨first, hfirst, hstored⟩ := h.first_of_range fragment hfragment
  rw [AssemblyConfig.stored_of_retain hretain] at hstored
  exact hstored ▸ hbuilt first (List.mem_of_find?_eq_some hfirst)

/-- The bytes of a tiling, each from the first fragment offered for it. -/
theorem Collects.joined (h : sequence.Collects config life)
    (htile : Fragment.Tile 0 stop sequence.fragments) (hretain : config.retainPayload = true)
    (hbuilt : ∀ offered ∈ life, offered.Built)
    (hpayload : ∀ fragment ∈ sequence.fragments, fragment.payload.isSome = true) :
    ∃ bytes, Fragment.joined? sequence.fragments = some bytes ∧ bytes.length = stop ∧
      ∀ position < stop, ∃ fragment, life.find? (·.Covers position) = some fragment ∧
        bytes[position]? = fragment.byteAt? position := by
  obtain ⟨bytes, hjoined, hlength, hbytes⟩ := htile.joined
    (fun fragment hfragment =>
      (h.built hretain hbuilt fragment hfragment).hasBytes (hpayload fragment hfragment))
  refine ⟨bytes, hjoined, hlength, ?_⟩
  intro position hposition
  obtain ⟨fragment, hfragment, hcovers⟩ := htile.exists_covering (Nat.zero_le _) hposition
  obtain ⟨first, hfirst, hstored⟩ := h.find?_covers htile hfragment hcovers
  rw [AssemblyConfig.stored_of_retain hretain] at hstored
  subst hstored
  exact ⟨first, hfirst, hbytes first hfragment position hcovers⟩

theorem Collects.completed (h : sequence.Collects config life)
    (hbuilt : ∀ offered ∈ life, offered.Built) (hcovered : sequence.IsCovered) :
    ∃ total, Completed { sequence with status := .complete } config life total := by
  obtain ⟨hclear, total, htotal, htile⟩ := hcovered
  have htold := h.total_is_end total htotal
  have hne : sequence.fragments ≠ [] := by
    obtain ⟨fragment, hfragment, _⟩ := htold
    exact List.ne_nil_of_mem hfragment
  exact ⟨total, {
    status_eq := rfl
    clear := hclear
    total_eq := htotal
    starts := htile.head_offset hne
    consecutive := htile.isChain
    ends := htile.last_stop hne
    told := htold
    one_range := fun a ha b hb position => h.sameRange_of_shared htile ha hb
    bytes := fun hretain hpayload => h.joined htile hretain hbuilt hpayload }⟩

end FragmentSequence

namespace AssemblyCall

variable {κ : Type} [DecidableEq κ]

theorem mem_lifetime {key : κ} {calls : List (AssemblyCall κ)} {fragment : Fragment}
    (h : fragment ∈ lifetime key calls) :
    ∃ call ∈ calls, call.operation = .insert key fragment := by
  induction calls using List.reverseRecOn with
  | nil => cases h
  | append_singleton calls last ih =>
    have hearlier (hmem : fragment ∈ lifetime key calls) :
        ∃ call ∈ calls ++ [last], call.operation = .insert key fragment := by
      obtain ⟨call, hcall, hoperation⟩ := ih hmem
      exact ⟨call, List.mem_append_left _ hcall, hoperation⟩
    rw [lifetime_concat, offered] at h
    split at h
    · next other inserted hoperation =>
      by_cases hkey : other = key
      · rw [if_pos hkey, List.mem_append, List.mem_singleton] at h
        rcases h with hmem | rfl
        · refine hearlier ?_
          unfold offeredBefore at hmem
          split at hmem
          · cases hmem
          · exact hmem
        · exact ⟨last, by simp, hkey ▸ hoperation⟩
      · rw [if_neg hkey] at h
        exact hearlier h
    · exact hearlier h
    · exact hearlier h

end AssemblyCall

namespace Assembler

variable {κ : Type} [DecidableEq κ]

theorem operation_of_mem_calls {assembler : Assembler κ} {operations : List (AssemblyOperation κ)}
    {call : AssemblyCall κ} (h : call ∈ assembler.calls operations) :
    call.operation ∈ operations := by
  rw [← assembler.operations_calls operations]
  exact List.mem_map_of_mem h

/-- A sequence is reported as complete by the insertion whose fragment covers it. -/
theorem complete_of_insert {assembler : Assembler κ} {key : κ} {fragment : Fragment}
    {sequence : FragmentSequence κ}
    (h : .complete sequence ∈ (assembler.insert key fragment).2) :
    assembler.repeats key fragment = false ∧ (assembler.grown key fragment).IsCovered ∧
      sequence = { assembler.grown key fragment with status := .complete } := by
  rw [events_insert, opening, List.append_assoc, List.mem_append, List.mem_append] at h
  rcases h with h | h | h
  · obtain ⟨_, hevent⟩ := events_advance_timeout _ _ _ h
    cases hevent
  · obtain ⟨_, _, hevent⟩ | hevent := events_ensureOpen h <;> cases hevent
  · cases hrepeats : assembler.repeats key fragment with
    | true => simp [reported_of_repeats hrepeats] at h
    | false =>
      by_cases hcovered : (assembler.grown key fragment).IsCovered
      · exact ⟨rfl, hcovered, by simpa [reported_of_covered hrepeats hcovered] using h⟩
      · simp [reported_of_not_covered hrepeats hcovered] at h

theorem complete_of_apply {assembler : Assembler κ} {operation : AssemblyOperation κ}
    {sequence : FragmentSequence κ} (h : .complete sequence ∈ (assembler.apply operation).2) :
    ∃ key fragment, operation = .insert key fragment ∧
      assembler.repeats key fragment = false ∧ (assembler.grown key fragment).IsCovered ∧
        sequence = { assembler.grown key fragment with status := .complete } := by
  cases operation with
  | insert key fragment => exact ⟨key, fragment, rfl, complete_of_insert h⟩
  | advance time =>
    obtain ⟨_, hevent⟩ := events_advance_timeout assembler time _ h
    cases hevent
  | flush =>
    obtain ⟨_, hevent⟩ := events_flush_timeout assembler _ h
    cases hevent

theorem Tracks.completed {assembler : Assembler κ} {calls : List (AssemblyCall κ)}
    (htracks : assembler.Tracks calls) {operation : AssemblyOperation κ}
    {sequence : FragmentSequence κ} {life : List Fragment}
    (hlife : AssemblyCall.lifetime sequence.key
      (calls ++ [⟨operation, (assembler.apply operation).2⟩]) = life)
    (hbuilt : ∀ offered ∈ life, offered.Built)
    (h : .complete sequence ∈ (assembler.apply operation).2) :
    ∃ total, sequence.Completed assembler.config life total := by
  obtain ⟨key, fragment, rfl, hrepeats, hcovered, hsequence⟩ := complete_of_apply h
  have hkey : sequence.key = key := by
    rw [hsequence]
    exact assembler.key_grown key fragment
  rw [AssemblyCall.lifetime_concat, AssemblyCall.offered, hkey] at hlife
  simp only [if_true] at hlife
  have hcollects := (htracks.target key fragment).extended hrepeats
  rw [hsequence]
  exact (hlife ▸ hcollects).completed hbuilt hcovered

/-- Every sequence that a run reports as complete covers its datagram, and the datagram is the only
reading of what was offered to it. -/
theorem completed_of_run (config : AssemblyConfig) (operations : List (AssemblyOperation κ))
    (last : AssemblyOperation κ)
    (hbuilt : ∀ key fragment, .insert key fragment ∈ operations ++ [last] → fragment.Built)
    (sequence : FragmentSequence κ)
    (h : .complete sequence ∈ (((ofConfig config).after operations).apply last).2) :
    ∃ total, sequence.Completed config
      (AssemblyCall.lifetime sequence.key ((ofConfig config).calls (operations ++ [last]))) total := by
  have hcompleted := (tracks_after config operations).completed
    (congrArg _ (calls_concat (ofConfig config) operations last).symm)
    (fun offered hoffered => by
      obtain ⟨call, hcall, hinsert⟩ := AssemblyCall.mem_lifetime hoffered
      exact hbuilt sequence.key offered (hinsert ▸ operation_of_mem_calls hcall)) h
  rwa [config_after] at hcompleted

section Halves

/-- A datagram in two halves, the second one first; its first copy is lost to a flush. -/
def halves : List (AssemblyOperation Nat) :=
  [.insert 7 (.ofPayload 2 [3, 4] false .zero), .flush,
    .insert 7 (.ofPayload 2 [5, 6] false (.ofSeconds 1)),
    .insert 7 (.ofPayload 2 [7, 8] false (.ofSeconds 2)), .advance (.ofSeconds 3)]

def firstHalf : AssemblyOperation Nat := .insert 7 (.ofPayload 0 [1, 2] true (.ofSeconds 3))

def joinedHalves : FragmentSequence Nat :=
  { key := 7
    fragments := [.ofPayload 0 [1, 2] true (.ofSeconds 3), .ofPayload 2 [5, 6] false (.ofSeconds 1)]
    totalLength := some 4
    status := .complete
    ambiguous := false
    firstFragmentAt := .ofSeconds 1
    lastFragmentAt := .ofSeconds 3
    serial := 1 }

theorem halves_completed :
    (∀ key fragment, .insert key fragment ∈ halves ++ [firstHalf] → fragment.Built) ∧
      .complete joinedHalves ∈ (((ofConfig {}).after halves).apply firstHalf).2 ∧
      ∃ total, joinedHalves.Completed {}
        (AssemblyCall.lifetime 7 ((ofConfig {}).calls (halves ++ [firstHalf]))) total := by
  have hbuilt : ∀ key fragment,
      .insert key fragment ∈ halves ++ [firstHalf] → fragment.Built := by
    intro key fragment h
    simp only [halves, firstHalf, List.cons_append, List.nil_append, List.mem_cons,
      AssemblyOperation.insert.injEq, reduceCtorEq, false_or, List.not_mem_nil, or_false] at h
    rcases h with ⟨_, rfl⟩ | ⟨_, rfl⟩ | ⟨_, rfl⟩ | ⟨_, rfl⟩ <;> constructor
  have hcomplete : .complete joinedHalves ∈ (((ofConfig {}).after halves).apply firstHalf).2 := by
    decide
  exact ⟨hbuilt, hcomplete, completed_of_run {} halves firstHalf hbuilt joinedHalves hcomplete⟩

end Halves

end Assembler

end Dissection
