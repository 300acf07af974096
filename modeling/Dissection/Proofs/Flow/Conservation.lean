import Dissection.Proofs.Flow.Entries
import Dissection.Proofs.Flow.Run
import Mathlib.Algebra.GroupWithZero.Nat
import Mathlib.Data.List.ModifyLast

/-!
# No packet is lost

Flows leave a table when they make room for others and when they have been idle for too long, and
an operation gives back whatever it takes out. So every packet that was ever accounted is found in
a flow that is in the table, or in one that was given back. The packets of a key form lifetimes, one
for each of its flows, and a flow tells of the packets of its lifetime: how many went which way, how
many bytes they had, and when the first and the latest of them came.
-/

namespace Dissection

theorem filterMap_concat {α β : Type} (f : α → Option β) (things : List α) (last : α) :
    (things ++ [last]).filterMap f = things.filterMap f ++ (f last).toList := by
  rw [List.filterMap_append]
  cases h : f last <;> simp [h]

structure FlowPacket where
  key : FlowKey
  time : Timestamp
  bytes : Nat

def FlowOperation.packet? : FlowOperation → Option FlowPacket
  | .account key now bytes => some ⟨key, now, bytes⟩
  | .expire _ => none

def FlowOperation.packetOf? (operation : FlowOperation) (key : FlowKey) : Option FlowPacket :=
  operation.packet?.filter (fun packet => packet.key.identity = key.identity)

def FlowPacket.ofRun (operations : List FlowOperation) : List FlowPacket :=
  operations.filterMap FlowOperation.packet?

theorem FlowPacket.ofRun_concat (operations : List FlowOperation) (last : FlowOperation) :
    ofRun (operations ++ [last]) = ofRun operations ++ last.packet?.toList := by
  rw [ofRun, filterMap_concat]
  rfl

theorem FlowPacket.ofRun_filter (key : FlowKey) (operations : List FlowOperation) :
    (ofRun operations).filter (fun packet => packet.key.identity = key.identity) =
      operations.filterMap (·.packetOf? key) :=
  List.filter_filterMap

def Traffic.ofPackets (packets : List FlowPacket) : Traffic :=
  ⟨packets.length, (packets.map FlowPacket.bytes).sum⟩

/-- A packet is recorded when it is one of those that count. -/
theorem Traffic.ofPackets_filter_concat (counts : FlowPacket → Bool) (packets : List FlowPacket)
    (last : FlowPacket) :
    ofPackets ((packets ++ [last]).filter counts) =
      if counts last then (ofPackets (packets.filter counts)).record last.bytes
      else ofPackets (packets.filter counts) := by
  cases h : counts last <;> simp [ofPackets, record, h]

/-- The packets make up the flow. -/
structure FlowPacket.MakeUp (packets : List FlowPacket) (flow : Flow) : Prop where
  /-- The first packet opens the flow. -/
  opener : packets.head?.map (fun packet => (packet.key, packet.time)) =
    some (flow.key, flow.entry.firstSeen)
  initiator_eq : flow.entry.initiator = flow.key.direction
  same_flow : ∀ packet ∈ packets, packet.key.identity = flow.key.identity
  forward_eq : flow.entry.forward =
    .ofPackets (packets.filter (·.key.direction = flow.key.direction))
  reverse_eq : flow.entry.reverse =
    .ofPackets (packets.filter (·.key.direction ≠ flow.key.direction))
  last_at : IsLatest FlowPacket.time packets flow.entry.lastSeen

theorem FlowPacket.makeUp_start (packet : FlowPacket) (serial : Nat) :
    MakeUp [packet]
      ⟨packet.key, .start packet.key.direction packet.time packet.bytes, serial⟩ where
  opener := rfl
  initiator_eq := rfl
  same_flow other hother := by rw [List.mem_singleton.1 hother]
  forward_eq := by simp [FlowEntry.start, Traffic.ofPackets, Traffic.record]
  reverse_eq := by simp [FlowEntry.start, Traffic.ofPackets]
  last_at := isLatest_singleton FlowPacket.time packet

theorem FlowPacket.MakeUp.record {packets : List FlowPacket} {flow : Flow}
    (h : MakeUp packets flow) {packet : FlowPacket}
    (hsame : packet.key.identity = flow.key.identity) :
    MakeUp (packets ++ [packet])
      (flow.record packet.key.direction packet.time packet.bytes) := by
  constructor
  case opener =>
    obtain ⟨first, hfirst, hopener⟩ := Option.map_eq_some_iff.1 h.opener
    rw [List.head?_append, hfirst, Flow.record, FlowEntry.firstSeen_record, ← hopener]
    rfl
  case initiator_eq => exact (FlowEntry.initiator_record _ _ _ _).trans h.initiator_eq
  case same_flow =>
    intro other hother
    rcases List.mem_append.1 hother with hmem | hmem
    · exact h.same_flow other hmem
    · rw [List.mem_singleton.1 hmem]
      exact hsame
  case forward_eq =>
    rw [Flow.record, FlowEntry.forward_record, h.initiator_eq, h.forward_eq,
      Traffic.ofPackets_filter_concat]
    simp
  case reverse_eq =>
    rw [Flow.record, FlowEntry.reverse_record, h.initiator_eq, h.reverse_eq,
      Traffic.ofPackets_filter_concat]
    simp
  case last_at =>
    rw [Flow.record, FlowEntry.lastSeen_record]
    exact h.last_at.cons (List.perm_append_singleton packet packets)

namespace FlowTable

section Flows

variable {table : FlowTable} (h : table.Indexed)

include h

theorem Indexed.perm_expire (now : Timestamp) :
    ((table.expire now).1.flows ++ (table.expire now).2).Perm table.flows := by
  rw [h.expire_eq]
  have hexpired := (Idle.perm_arranged table.flows).filter
    (Idle.isOverdue now table.idleTimeout)
  refine (List.perm_append_comm.trans (hexpired.append_right _)).trans ?_
  exact List.filter_append_perm _ table.flows

theorem Indexed.perm_kept :
    (table.flows.filter (some · != table.evicted?) ++ table.evicted?.toList).Perm
      table.flows := by
  cases hgone : table.evicted? with
  | none => rw [filter_ne_none, Option.toList_none, List.append_nil]
  | some gone =>
    exact (List.perm_append_singleton _ _).trans (h.indexes.perm_cons (evicted?_mem hgone)).symm

theorem Indexed.perm_open {key : FlowKey} (hnew : table.find? key = none) (now : Timestamp)
    (bytes : Nat) :
    ((table.account key now bytes).1.flows ++ (table.account key now bytes).2.toList).Perm
      (⟨key, .start key.direction now bytes, table.opened⟩ :: table.flows) := by
  obtain ⟨hflows, hevicted, _⟩ := h.open hnew now bytes
  rw [hflows, hevicted, List.append_assoc]
  exact List.perm_middle.trans (h.perm_kept.cons _)

theorem Indexed.perm_record {key : FlowKey} {flow : Flow} (hknown : table.find? key = some flow)
    (now : Timestamp) (bytes : Nat) :
    (table.account key now bytes).1.flows.Perm
      (flow.record key.direction now bytes :: table.flows.filter (· != flow)) := by
  obtain ⟨hflow, hkey⟩ := h.find?_eq_some_iff.1 hknown
  have hseen : seen key now bytes flow = flow.record key.direction now bytes :=
    if_pos (isFlowOf_iff.2 hkey)
  have hothers : (table.flows.filter (· != flow)).map (seen key now bytes) =
      table.flows.filter (· != flow) := by
    refine (List.map_congr_left ?_).trans (List.map_id _)
    intro other hother
    obtain ⟨hmem, hne⟩ := List.mem_filter.1 hother
    refine if_neg (fun hof => ?_)
    exact bne_iff_ne.1 hne ((h.isFlowOf_iff_eq hknown hmem).1 hof)
  have hperm := (h.indexes.perm_cons hflow).map (seen key now bytes)
  rw [List.map_cons, hseen, hothers] at hperm
  rw [h.account_of_known hknown]
  exact hperm

end Flows

section Total

variable (measure : FlowEntry → Nat)

def total (flows : List Flow) : Nat := (flows.map (fun flow => measure flow.entry)).sum

theorem total_perm {flows others : List Flow} (h : flows.Perm others) :
    total measure flows = total measure others := (h.map _).sum_nat

@[simp] theorem total_cons (flow : Flow) (others : List Flow) :
    total measure (flow :: others) = measure flow.entry + total measure others := List.sum_cons

@[simp] theorem total_append (flows others : List Flow) :
    total measure (flows ++ others) = total measure flows + total measure others := by
  simp [total]

variable {measure} {weight : Nat → Nat}
  (hstart : ∀ direction now bytes, measure (.start direction now bytes) = weight bytes)
  (hrecord : ∀ (entry : FlowEntry) direction now bytes,
    measure (entry.record direction now bytes) = measure entry + weight bytes)

include hstart hrecord

/-- An operation adds what its packet weighs, and takes nothing away. -/
theorem Indexed.total_apply {table : FlowTable} (h : table.Indexed) (operation : FlowOperation) :
    total measure (table.apply operation).1.flows + total measure (table.apply operation).2 =
      total measure table.flows +
        (operation.packet?.toList.map (fun packet => weight packet.bytes)).sum := by
  rw [← total_append]
  cases operation with
  | expire now => exact total_perm measure (h.perm_expire now)
  | account key now bytes =>
    cases hfound : table.find? key with
    | none =>
      rw [FlowTable.apply, total_perm measure (h.perm_open hfound now bytes), total_cons, hstart,
        Nat.add_comm]
      simp [FlowOperation.packet?]
    | some flow =>
      have hflow := (h.find?_eq_some_iff.1 hfound).1
      have hremoved : (table.account key now bytes).2 = none := by rw [h.account_of_known hfound]
      rw [FlowTable.apply, hremoved, Option.toList_none, List.append_nil,
        total_perm measure (h.perm_record hfound now bytes),
        total_perm measure (h.indexes.perm_cons hflow), total_cons, total_cons, Flow.record, hrecord]
      simp [FlowOperation.packet?, Nat.add_right_comm]

/-- Over a run, the flows come to what the packets weigh. -/
theorem total_run (maxFlows : Nat) (idleTimeout : Duration) (operations : List FlowOperation) :
    total measure ((ofLimits maxFlows idleTimeout).after operations).flows +
        total measure ((ofLimits maxFlows idleTimeout).returned operations).flatten =
      ((FlowPacket.ofRun operations).map (fun packet => weight packet.bytes)).sum := by
  induction operations using List.reverseRecOn with
  | nil => rfl
  | append_singleton operations last ih =>
    have hindexed := (indexed_ofLimits maxFlows idleTimeout).after operations
    have hstep := hindexed.total_apply hstart hrecord last
    rw [after_concat, returned_concat, List.flatten_append, List.flatten_singleton, total_append,
      FlowPacket.ofRun_concat, List.map_append, List.sum_append, ← ih]
    omega

end Total

/-- The lifetimes of a key, after those before an operation: a packet of the key goes on with the
last one when the table has a flow of the key, and begins a new one when it has none. -/
def lifetimesAfter (table : FlowTable) (key : FlowKey) (lifetimes : List (List FlowPacket))
    (operation : FlowOperation) : List (List FlowPacket) :=
  match operation.packetOf? key, table.find? key with
  | none, _ => lifetimes
  | some packet, none => lifetimes ++ [[packet]]
  | some packet, some _ => lifetimes.modifyLast (· ++ [packet])

/-- The lifetimes of a key over a run, behind those that it had before. -/
def lifetimes (table : FlowTable) (key : FlowKey) (earlier : List (List FlowPacket)) :
    List FlowOperation → List (List FlowPacket)
  | [] => earlier
  | operation :: rest =>
    (table.apply operation).1.lifetimes key (table.lifetimesAfter key earlier operation) rest

theorem lifetimes_concat (table : FlowTable) (key : FlowKey) (earlier : List (List FlowPacket))
    (operations : List FlowOperation) (last : FlowOperation) :
    table.lifetimes key earlier (operations ++ [last]) =
      (table.after operations).lifetimesAfter key (table.lifetimes key earlier operations) last := by
  induction operations generalizing table earlier with
  | nil => rfl
  | cons operation rest ih => exact ih (table.apply operation).1 _

/-- A packet of the key makes up the flow in the table together with those before it, or a new flow.
All other operations leave the flow as it is, wherever it is then. -/
theorem Indexed.lifetimes_step {table : FlowTable} (h : table.Indexed) {key : FlowKey}
    {lifetimes : List (List FlowPacket)} {gone : List Flow}
    (hlifetimes : List.Forall₂ FlowPacket.MakeUp lifetimes (gone ++ (table.find? key).toList))
    (operation : FlowOperation) :
    (table.lifetimesAfter key lifetimes operation).flatten =
        lifetimes.flatten ++ (operation.packetOf? key).toList ∧
      List.Forall₂ FlowPacket.MakeUp (table.lifetimesAfter key lifetimes operation)
        (gone ++ entriesOf key (table.apply operation)) := by
  cases operation with
  | expire now =>
    refine ⟨(List.append_nil _).symm, ?_⟩
    rw [FlowTable.apply, h.entriesOf_expire]
    exact hlifetimes
  | account other now bytes =>
    let packet : FlowPacket := ⟨other, now, bytes⟩
    by_cases hsame : other.identity = key.identity
    · have hpacket : (FlowOperation.account other now bytes).packetOf? key = some packet := by
        simp [FlowOperation.packetOf?, FlowOperation.packet?, hsame, packet]
      have hfind := table.find?_congr hsame
      rw [FlowTable.apply, ← entriesOf_congr hsame, lifetimesAfter, hpacket]
      rw [← hfind] at hlifetimes ⊢
      cases hknown : table.find? other with
      | none =>
        rw [hknown, Option.toList_none, List.append_nil] at hlifetimes
        rw [h.entriesOf_new now bytes hknown]
        refine ⟨by simp, List.rel_append hlifetimes (.cons ?_ .nil)⟩
        exact packet.makeUp_start table.opened
      | some flow =>
        rw [hknown] at hlifetimes
        obtain ⟨earlier, latest, rfl, hearlier, hlatest⟩ := forall₂_concat hlifetimes
        have hflow := (h.find?_eq_some_iff.1 hknown).2
        rw [h.entriesOf_known now bytes hknown]
        simp only [List.modifyLast_concat]
        refine ⟨by simp, List.rel_append hearlier (.cons ?_ .nil)⟩
        exact hlatest.record hflow.symm
    · have hpacket : (FlowOperation.account other now bytes).packetOf? key = none := by
        simp [FlowOperation.packetOf?, FlowOperation.packet?, hsame]
      rw [FlowTable.apply, h.entriesOf_other _ _ hsame, lifetimesAfter, hpacket]
      exact ⟨(List.append_nil _).symm, hlifetimes⟩

section Run

variable (maxFlows : Nat) (idleTimeout : Duration) (operations : List FlowOperation)

/-- Each lifetime of a key makes up one of its flows, and no packet of the key is left over. -/
theorem lifetimes_run (key : FlowKey) :
    let opening := ofLimits maxFlows idleTimeout
    let lifetimes := opening.lifetimes key [] operations
    lifetimes.flatten = operations.filterMap (·.packetOf? key) ∧
      List.Forall₂ FlowPacket.MakeUp lifetimes
        ((opening.returned operations).flatten.filter (isFlowOf key) ++
          (opening.after operations).flows.filter (isFlowOf key)) := by
  intro opening lifetimes
  induction operations using List.reverseRecOn with
  | nil => exact ⟨rfl, .nil⟩
  | append_singleton operations last ih =>
    obtain ⟨hflatten, hlifetimes⟩ := ih
    have hindexed := (indexed_ofLimits maxFlows idleTimeout).after operations
    rw [hindexed.filter_isFlowOf] at hlifetimes
    obtain ⟨hnext, hmakeUp⟩ := hindexed.lifetimes_step hlifetimes last
    have hconcat : lifetimes = (opening.after operations).lifetimesAfter key
        (opening.lifetimes key [] operations) last := lifetimes_concat _ _ _ _ _
    rw [hconcat, hnext, hflatten, returned_concat, after_concat, List.flatten_append,
      List.flatten_singleton, List.filter_append, List.append_assoc]
    exact ⟨(filterMap_concat _ operations last).symm, hmakeUp⟩

/-- After every run, the flows in the table and those that were removed come to the packets of the
run, and to their bytes. The packets of a key form lifetimes: each makes up one of the flows of the
key, of which all have been removed but the one in the table. -/
theorem conserved_of_run :
    let opening := ofLimits maxFlows idleTimeout
    let live := (opening.after operations).flows
    let removed := (opening.returned operations).flatten
    let packets := FlowPacket.ofRun operations
    total FlowEntry.packetCount live + total FlowEntry.packetCount removed = packets.length ∧
      total FlowEntry.byteCount live + total FlowEntry.byteCount removed =
        (packets.map FlowPacket.bytes).sum ∧
      ∀ key, let lifetimes := opening.lifetimes key [] operations
        lifetimes.flatten =
            packets.filter (fun packet => packet.key.identity = key.identity) ∧
          List.Forall₂ FlowPacket.MakeUp lifetimes
            (removed.filter (isFlowOf key) ++ live.filter (isFlowOf key)) := by
  intro opening live removed packets
  have hpackets : total FlowEntry.packetCount live + total FlowEntry.packetCount removed =
      (packets.map (fun _ => 1)).sum :=
    total_run (fun _ _ _ => rfl) FlowEntry.packetCount_record maxFlows idleTimeout operations
  have hbytes : total FlowEntry.byteCount live + total FlowEntry.byteCount removed =
      (packets.map FlowPacket.bytes).sum :=
    total_run (fun _ _ bytes => Nat.zero_add bytes) FlowEntry.byteCount_record maxFlows
      idleTimeout operations
  refine ⟨?_, hbytes, ?_⟩
  · simpa using hpackets
  · intro key lifetimes
    rw [FlowPacket.ofRun_filter]
    exact lifetimes_run maxFlows idleTimeout operations key

end Run

end FlowTable

end Dissection
