import Dissection.Flow.Key
import Dissection.IdleOrder

/-!
# Flow tables

A flow table accounts packets to flows, both directions of a flow together. Beside the flows it
keeps an index of them in idle order. Expiry takes the flows that have been idle for too long from
the front of the index, and a full table makes room by giving up the one in front.
-/

namespace Dissection

structure Traffic where
  packets : Nat := 0
  bytes : Nat := 0
  deriving DecidableEq

def Traffic.record (traffic : Traffic) (bytes : Nat) : Traffic :=
  ⟨traffic.packets + 1, traffic.bytes + bytes⟩

structure FlowEntry where
  firstSeen : Timestamp
  lastSeen : Timestamp
  /-- The direction of the packet that opened the flow. -/
  initiator : FlowDirection
  /-- Traffic in the direction of the initiator. -/
  forward : Traffic
  reverse : Traffic
  deriving DecidableEq

namespace FlowEntry

def packetCount (entry : FlowEntry) : Nat := entry.forward.packets + entry.reverse.packets

def byteCount (entry : FlowEntry) : Nat := entry.forward.bytes + entry.reverse.bytes

def start (direction : FlowDirection) (now : Timestamp) (bytes : Nat) : FlowEntry :=
  ⟨now, now, direction, Traffic.record {} bytes, {}⟩

/-- Accounts one more packet. Its time never moves the entry back. -/
def record (entry : FlowEntry) (direction : FlowDirection) (now : Timestamp) (bytes : Nat) :
    FlowEntry :=
  let entry := { entry with lastSeen := max entry.lastSeen now }
  if direction = entry.initiator then { entry with forward := entry.forward.record bytes }
  else { entry with reverse := entry.reverse.record bytes }

@[simp] theorem firstSeen_record (entry : FlowEntry) (direction : FlowDirection) (now : Timestamp)
    (bytes : Nat) : (entry.record direction now bytes).firstSeen = entry.firstSeen := by
  by_cases h : direction = entry.initiator <;> simp [record, h]

@[simp] theorem lastSeen_record (entry : FlowEntry) (direction : FlowDirection) (now : Timestamp)
    (bytes : Nat) : (entry.record direction now bytes).lastSeen = max entry.lastSeen now := by
  by_cases h : direction = entry.initiator <;> simp [record, h]

@[simp] theorem initiator_record (entry : FlowEntry) (direction : FlowDirection) (now : Timestamp)
    (bytes : Nat) : (entry.record direction now bytes).initiator = entry.initiator := by
  by_cases h : direction = entry.initiator <;> simp [record, h]

@[simp] theorem packetCount_record (entry : FlowEntry) (direction : FlowDirection)
    (now : Timestamp) (bytes : Nat) :
    (entry.record direction now bytes).packetCount = entry.packetCount + 1 := by
  by_cases h : direction = entry.initiator
  · simp [record, h, packetCount, Traffic.record, Nat.add_right_comm]
  · simp [record, h, packetCount, Traffic.record, Nat.add_assoc]

@[simp] theorem byteCount_record (entry : FlowEntry) (direction : FlowDirection)
    (now : Timestamp) (bytes : Nat) :
    (entry.record direction now bytes).byteCount = entry.byteCount + bytes := by
  by_cases h : direction = entry.initiator
  · simp [record, h, byteCount, Traffic.record, Nat.add_right_comm]
  · simp [record, h, byteCount, Traffic.record, Nat.add_assoc]

theorem forward_record (entry : FlowEntry) (direction : FlowDirection) (now : Timestamp)
    (bytes : Nat) : (entry.record direction now bytes).forward =
      if direction = entry.initiator then entry.forward.record bytes else entry.forward := by
  by_cases h : direction = entry.initiator <;> simp [record, h]

theorem reverse_record (entry : FlowEntry) (direction : FlowDirection) (now : Timestamp)
    (bytes : Nat) : (entry.record direction now bytes).reverse =
      if direction = entry.initiator then entry.reverse else entry.reverse.record bytes := by
  by_cases h : direction = entry.initiator <;> simp [record, h]

end FlowEntry

/-- A flow in a table, under the key of the packet that opened it. -/
structure Flow where
  key : FlowKey
  entry : FlowEntry
  /-- How many flows the table opened before this one. -/
  serial : Nat
  deriving DecidableEq

instance : Idle Flow := ⟨fun flow => flow.entry.lastSeen, fun flow => flow.serial⟩

def Flow.record (flow : Flow) (direction : FlowDirection) (now : Timestamp) (bytes : Nat) : Flow :=
  { flow with entry := flow.entry.record direction now bytes }

/-- The place of a flow in the index: when it was last seen, and its serial number. The key is the
one of the packet that put the flow there, which may come from either side. -/
structure IdleSlot where
  lastSeen : Timestamp
  serial : Nat
  key : FlowKey
  deriving DecidableEq

instance : Idle IdleSlot := ⟨fun slot => slot.lastSeen, fun slot => slot.serial⟩

structure FlowTable where
  maxFlows : Nat
  idleTimeout : Duration
  flows : List Flow := []
  /-- The index of the flows, in idle order. -/
  idleOrder : List IdleSlot := []
  /-- How many flows have been opened. -/
  opened : Nat := 0

namespace FlowTable

def isFlowOf (key : FlowKey) (flow : Flow) : Bool := decide (flow.key.identity = key.identity)

def find? (table : FlowTable) (key : FlowKey) : Option Flow := table.flows.find? (isFlowOf key)

def size (table : FlowTable) : Nat := table.flows.length

/-- Takes the flow of a key out of the table. Its place in the index is not touched. -/
def remove (table : FlowTable) (key : FlowKey) : FlowTable × Option Flow :=
  ({ table with flows := table.flows.filter (fun flow => !isFlowOf key flow) }, table.find? key)

def evictOldest (table : FlowTable) : FlowTable × Option Flow :=
  match table.idleOrder with
  | [] => (table, none)
  | oldest :: later => { table with idleOrder := later }.remove oldest.key

def makeRoom (table : FlowTable) : FlowTable × Option Flow :=
  if table.maxFlows ≤ table.size then table.evictOldest else (table, none)

def openFlow (table : FlowTable) (key : FlowKey) (now : Timestamp) (bytes : Nat) : FlowTable :=
  { table with
    flows := table.flows ++ [⟨key, .start key.direction now bytes, table.opened⟩]
    idleOrder := Idle.place ⟨now, table.opened, key⟩ table.idleOrder
    opened := table.opened + 1 }

/-- The index after a flow was seen by a packet with the given key: its slot only moves when the
time at which it was last seen does. -/
def reindex (table : FlowTable) (flow : Flow) (key : FlowKey) (lastSeen : Timestamp) :
    List IdleSlot :=
  if lastSeen = flow.entry.lastSeen then table.idleOrder
  else
    let others := table.idleOrder.filter (fun slot =>
      ¬ (slot.lastSeen = flow.entry.lastSeen ∧ slot.serial = flow.serial))
    Idle.place ⟨lastSeen, flow.serial, key⟩ others

def refresh (table : FlowTable) (flow : Flow) (key : FlowKey) (now : Timestamp) (bytes : Nat) :
    FlowTable :=
  let recorded := flow.record key.direction now bytes
  { table with
    flows := table.flows.map (fun other => if isFlowOf key other then recorded else other)
    idleOrder := table.reindex flow key recorded.entry.lastSeen }

/-- Accounts one packet of the flow of `key`, opening the flow if there is none. Also gives the flow
that was removed to make room. -/
def account (table : FlowTable) (key : FlowKey) (now : Timestamp) (bytes : Nat) :
    FlowTable × Option Flow :=
  match table.find? key with
  | some flow => (table.refresh flow key now bytes, none)
  | none => (table.makeRoom.1.openFlow key now bytes, table.makeRoom.2)

/-- Goes through the index from the front, and removes flows until it meets one that has not been
idle for too long. -/
def expireFrom (now : Timestamp) : List IdleSlot → FlowTable → FlowTable × List Flow
  | [], table => ({ table with idleOrder := [] }, [])
  | oldest :: later, table =>
    if Idle.isOverdue now table.idleTimeout oldest then
      let (removed, flow) := table.remove oldest.key
      let (current, expired) := expireFrom now later removed
      (current, flow.toList ++ expired)
    else ({ table with idleOrder := oldest :: later }, [])

/-- Removes the flows that have been idle for longer than the timeout, and gives them in idle
order. -/
def expire (table : FlowTable) (now : Timestamp) : FlowTable × List Flow :=
  expireFrom now table.idleOrder table

end FlowTable

end Dissection
