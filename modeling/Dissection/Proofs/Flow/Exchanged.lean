import Dissection.Proofs.Flow.Identity
import Dissection.Proofs.Scan.Shape
import Dissection.Proofs.Wire.Exchange

/-!
# Replies to a packet

A packet becomes a reply when in every header the bytes of each source and of its destination change
places. As long as the flow fields of a header keep clear of one another, the reply shows the flow
of the packet with all sources and destinations exchanged, and all other bytes are the same.
-/

namespace Dissection

open HeaderRecord (Contiguous stopAfter stopAfter_cons)

namespace FlowField

/-- The places of source and destination in a buffer that holds the header at `start`. -/
def exchange? (start : Nat) : FlowField → Option Exchange
  | .fixed .. => none
  | .reversible source destination length => some ⟨start + source, start + destination, length⟩

/-- The byte at this index of the header belongs to a source or a destination. -/
def Moves : FlowField → Nat → Prop
  | .fixed .., _ => False
  | .reversible source destination length, index =>
    source ≤ index ∧ index < source + length ∨ destination ≤ index ∧ index < destination + length

instance : (field : FlowField) → (index : Nat) → Decidable (field.Moves index)
  | .fixed .., _ => inferInstanceAs (Decidable False)
  | .reversible .., _ => inferInstanceAs (Decidable (_ ∨ _))

variable {field : FlowField} {start index : Nat} {exchange : Exchange}

theorem touches_iff (h : field.exchange? start = some exchange) :
    exchange.Touches index ↔ ∃ inner, index = start + inner ∧ field.Moves inner := by
  cases field with
  | fixed => cases h
  | reversible source destination length =>
    cases h
    simp only [Exchange.Touches, Moves]
    constructor
    · intro htouches
      exact ⟨index - start, by omega, by omega⟩
    · rintro ⟨inner, rfl, hmoves⟩
      omega

theorem lt_stop_of_moves (h : field.Moves index) : index < field.stop := by
  cases field with
  | fixed => exact h.elim
  | reversible source destination length =>
    simp only [Moves, stop] at h ⊢
    omega

/-- Every source lies before its destination, and the fields of a header have no byte of a source or
a destination in common. -/
structure Orderly (fields : List FlowField) : Prop where
  runs : ∀ field ∈ fields, ∀ exchange, field.exchange? 0 = some exchange →
    exchange.first + exchange.length ≤ exchange.second
  apart : fields.Pairwise (fun a b => ∀ index, a.Moves index → ¬ b.Moves index)
  fixed : ∀ field ∈ fields, ∀ span, field.fixed? = some span →
    ∀ index < span.stop, span.offset ≤ index → ∀ other ∈ fields, ¬ other.Moves index

end FlowField

namespace FrozenRegistry

/-- What changes places in a header when its packet is replied to. -/
def exchanges (registry : FrozenRegistry) (record : HeaderRecord) : List Exchange :=
  (registry.flowFields record.protocol).filterMap (·.exchange? record.offset)

/-- The packet with every source and destination in its headers exchanged in place. -/
def reply (registry : FrozenRegistry) (data : Bytes) (headers : List HeaderRecord) : Bytes :=
  (headers.flatMap registry.exchanges).foldl Exchange.apply data

/-- From `start` on, the buffer `data'` has what `data` has, with the sources and the destinations
in the headers exchanged. -/
structure Exchanged (registry : FrozenRegistry) (data data' : Bytes) (start : Nat)
    (headers : List HeaderRecord) : Prop where
  length : data'.length = data.length
  kept : ∀ record ∈ headers, ∀ index < record.length,
    (∀ field ∈ registry.flowFields record.protocol, ¬ field.Moves index) →
      data'[record.offset + index]? = data[record.offset + index]?
  moved : ∀ record ∈ headers, ∀ field ∈ registry.flowFields record.protocol,
    field.source?.map (·.bytes data' record) = field.destination?.map (·.bytes data record) ∧
      field.destination?.map (·.bytes data' record) = field.source?.map (·.bytes data record)
  rest : ∀ index, stopAfter start headers ≤ index → data'[index]? = data[index]?

variable {registry : FrozenRegistry} {data data' : Bytes} {start : Nat} {record : HeaderRecord}
  {headers : List HeaderRecord}

theorem Exchanged.tail (h : registry.Exchanged data data' start (record :: headers)) :
    registry.Exchanged data data' record.stop headers where
  length := h.length
  kept later hlater := h.kept later (List.mem_cons_of_mem _ hlater)
  moved later hlater := h.moved later (List.mem_cons_of_mem _ hlater)
  rest index hindex := h.rest index (by rwa [stopAfter_cons])

theorem Exchanged.drop_eq (h : registry.Exchanged data data' start headers)
    (hcontiguous : Contiguous start headers)
    (hnone : ∀ record ∈ headers, registry.flowFields record.protocol = []) :
    data'.drop start = data.drop start := by
  apply List.ext_getElem?
  intro index
  rw [List.getElem?_drop, List.getElem?_drop]
  rcases hcontiguous.covers (Nat.le_add_right start index) with ⟨record, hrecord, hle, hlt⟩ | hrest
  · unfold HeaderRecord.stop at hlt
    have hkept := h.kept record hrecord (start + index - record.offset) (by omega)
      (by simp [hnone record hrecord])
    rwa [Nat.add_sub_cancel' hle] at hkept
  · exact h.rest _ hrest

theorem flowBytes_congr {span? span?' : FlowField → Option Span}
    (h : ∀ record ∈ headers, ∀ field ∈ registry.flowFields record.protocol,
      (span? field).map (·.bytes data' record) = (span?' field).map (·.bytes data record)) :
    registry.flowBytes span? data' headers = registry.flowBytes span?' data headers := by
  apply List.flatMap_congr
  intro record hrecord
  rw [List.map_filterMap, List.map_filterMap]
  exact List.filterMap_congr (h record hrecord)

theorem Exchanged.observe_eq (h : registry.Exchanged data data' start headers)
    (hheld : ∀ record ∈ headers, registry.HoldsFields data record)
    (horderly : ∀ record ∈ headers, FlowField.Orderly (registry.flowFields record.protocol)) :
    registry.observe data' headers = (registry.observe data headers).exchanged := by
  have hfixed : registry.flowBytes FlowField.fixed? data' headers =
      registry.flowBytes FlowField.fixed? data headers := by
    refine flowBytes_congr fun record hrecord field hfield => ?_
    cases hspan : field.fixed? with
    | none => rfl
    | some span =>
      have hinside := Nat.le_trans (FlowField.stop_of_fixed? hspan)
        ((hheld record hrecord).2.2 field hfield)
      refine congrArg some (span.bytes_congr fun index hstop hoffset => ?_)
      exact h.kept record hrecord index (Nat.lt_of_lt_of_le hstop hinside)
        ((horderly record hrecord).fixed field hfield span hspan index hstop hoffset)
  have hsource : registry.flowBytes FlowField.source? data' headers =
      registry.flowBytes FlowField.destination? data headers :=
    flowBytes_congr fun record hrecord field hfield => (h.moved record hrecord field hfield).1
  have hdestination : registry.flowBytes FlowField.destination? data' headers =
      registry.flowBytes FlowField.source? data headers :=
    flowBytes_congr fun record hrecord field hfield => (h.moved record hrecord field hfield).2
  rw [observe, hfixed, hsource, hdestination]
  rfl

/-- The exchanges of a header touch no byte outside of it. -/
theorem inside_of_touches {exchange : Exchange} {index : Nat}
    (hheld : registry.HoldsFields data record) (hmem : exchange ∈ registry.exchanges record)
    (h : exchange.Touches index) :
    record.offset ≤ index ∧ index < record.stop ∧ record.stop ≤ data.length := by
  obtain ⟨field, hfield, hexchange⟩ := List.mem_filterMap.1 hmem
  obtain ⟨inner, rfl, hmoves⟩ := (FlowField.touches_iff hexchange).1 h
  have hinner := Nat.lt_of_lt_of_le (FlowField.lt_stop_of_moves hmoves) (hheld.2.2 field hfield)
  exact ⟨Nat.le_add_right _ _, Nat.add_lt_add_left hinner _,
    hheld.2.1 (List.ne_nil_of_mem hfield)⟩

section Reply

variable (hcontiguous : Contiguous 0 headers)
  (hheld : ∀ record ∈ headers, registry.HoldsFields data record)
  (horderly : ∀ record ∈ headers, FlowField.Orderly (registry.flowFields record.protocol))

include hcontiguous hheld horderly

theorem apart_exchanges : (headers.flatMap registry.exchanges).Pairwise Exchange.Apart := by
  rw [List.pairwise_flatMap]
  constructor
  · intro record hrecord
    refine List.pairwise_filterMap.2 ((horderly record hrecord).apart.imp ?_)
    intro a b hapart first hfirst second hsecond index htouches htouches'
    obtain ⟨inner, rfl, hmoves⟩ := (FlowField.touches_iff hfirst).1 htouches
    obtain ⟨same, heq, hmoves'⟩ := (FlowField.touches_iff hsecond).1 htouches'
    obtain rfl := Nat.add_left_cancel heq
    exact hapart inner hmoves hmoves'
  · refine hcontiguous.pairwise.imp_of_mem ?_
    intro a b ha hb hle first hfirst second hsecond index htouches htouches'
    have hinside := inside_of_touches (hheld a ha) hfirst htouches
    have hinside' := inside_of_touches (hheld b hb) hsecond htouches'
    omega

theorem exchanged_reply : registry.Exchanged data (registry.reply data headers) 0 headers := by
  have hapart := apart_exchanges hcontiguous hheld horderly
  have hfits : ∀ exchange ∈ headers.flatMap registry.exchanges, exchange.Fits data.length := by
    intro exchange hexchange index htouches
    obtain ⟨record, hrecord, hmem⟩ := List.mem_flatMap.1 hexchange
    have hinside := inside_of_touches (hheld record hrecord) hmem htouches
    omega
  constructor
  case length => exact Exchange.length_foldl_apply _ _
  case kept =>
    intro record hrecord index hindex hkept
    apply Exchange.getElem?_foldl_of_not_touches
    intro exchange hexchange htouches
    obtain ⟨other, hother, hmem⟩ := List.mem_flatMap.1 hexchange
    have hinside := inside_of_touches (hheld other hother) hmem htouches
    have hstop : record.offset + index < record.stop := Nat.add_lt_add_left hindex _
    -- the header itself keeps the byte, and the others lie elsewhere
    obtain ⟨before, behind, rfl⟩ := List.append_of_mem hrecord
    obtain ⟨-, hlater, hbefore⟩ := List.pairwise_append.1 hcontiguous.pairwise
    rcases List.mem_append.1 hother with hother | hother
    · have hle := hbefore other hother record List.mem_cons_self
      omega
    · rcases List.mem_cons.1 hother with rfl | hother
      · obtain ⟨field, hfield, hsome⟩ := List.mem_filterMap.1 hmem
        obtain ⟨inner, heq, hmoves⟩ := (FlowField.touches_iff hsome).1 htouches
        obtain rfl := Nat.add_left_cancel heq
        exact hkept field hfield hmoves
      · have hle := (List.pairwise_cons.1 hlater).1 other hother
        omega
  case moved =>
    intro record hrecord field hfield
    cases field with
    | fixed => exact ⟨rfl, rfl⟩
    | reversible source destination length =>
      have hmem : ⟨record.offset + source, record.offset + destination, length⟩ ∈
          headers.flatMap registry.exchanges :=
        List.mem_flatMap.2 ⟨record, hrecord, List.mem_filterMap.2 ⟨_, hfield, rfl⟩⟩
      have hruns := (horderly record hrecord).runs _ hfield _ rfl
      have hmoved := Exchange.take_drop_foldl hapart hfits hmem (by dsimp only at hruns ⊢; omega)
      exact ⟨congrArg some hmoved.1, congrArg some hmoved.2⟩
  case rest =>
    intro index hindex
    apply Exchange.getElem?_foldl_of_not_touches
    intro exchange hexchange htouches
    obtain ⟨record, hrecord, hmem⟩ := List.mem_flatMap.1 hexchange
    have hinside := inside_of_touches (hheld record hrecord) hmem htouches
    have hstop := (hcontiguous.between record hrecord).2
    omega

end Reply

/-- A UDP datagram in a tunnel: both pairs of addresses change places, and so do the ports. -/
example :
    let data : Bytes :=
      [69, 0, 0, 48, 0, 1, 0, 0, 64, 4, 0, 0, 10, 0, 0, 1, 10, 0, 0, 2,
        69, 0, 0, 28, 0, 1, 0, 0, 64, 17, 0, 0, 192, 168, 0, 1, 192, 168, 0, 2,
        192, 0, 0, 53, 0, 8, 0, 0]
    builtIn.reply data (builtIn.scan {} BuiltIn.ipv4.id data).headers =
      [69, 0, 0, 48, 0, 1, 0, 0, 64, 4, 0, 0, 10, 0, 0, 2, 10, 0, 0, 1,
        69, 0, 0, 28, 0, 1, 0, 0, 64, 17, 0, 0, 192, 168, 0, 2, 192, 168, 0, 1,
        0, 53, 192, 0, 0, 8, 0, 0] := by
  decide +kernel

end FrozenRegistry

end Dissection
