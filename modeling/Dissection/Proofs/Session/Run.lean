import Dissection.Proofs.Reassembly.Run
import Dissection.Session

/-!
# Runs of a session

A session processes the packets of a capture one by one. To each of its assemblers a packet is one
operation: its fragment is inserted, or the assembler is told the time. So an assembler does, over
a capture, what a run of the operations does that the packets stand for. The two families of
fragments differ in what a packet stands for and in nothing else.
-/

namespace Dissection

def ProcessedPacket.ipv4Events (output : ProcessedPacket) :
    List (AssemblyEvent Ipv4.FragmentKey) :=
  output.fragments.filterMap fun
    | .ipv4 event => some event
    | .ipv6 _ => none

namespace Session

variable (session : Session) (packet : Packet)

def chainOf : HeaderChain := session.registry.scan session.scan session.root packet.data

def ipv4Fragment? : Option (Ipv4.FragmentKey × Fragment) :=
  Ipv4.fragment? (session.chainOf packet) packet.data packet.timestamp

def ipv6Fragment? : Option (Ipv6.FragmentKey × Fragment) :=
  Ipv6.fragment? (session.chainOf packet) packet.data packet.timestamp

/-- What a packet asks of an assembler: to add its fragment, or to note the time. -/
def request {κ : Type} (fragment : Option (κ × Fragment)) (now : Timestamp) : AssemblyOperation κ :=
  match fragment with
  | some (key, fragment) => .insert key fragment
  | none => .advance now

theorem feed_eq_apply {κ : Type} [DecidableEq κ] (fragment : Option (κ × Fragment))
    (now : Timestamp) (assembler : Assembler κ) :
    feed fragment now assembler = assembler.apply (request fragment now) := by
  cases fragment with
  | some keyed => rfl
  | none => rfl

/-- The time at which a packet is processed. -/
def timeOf : Timestamp := (session.clock.observe packet.timestamp).now

@[simp] theorem chainOf_process (other : Packet) :
    (session.process packet).1.chainOf other = session.chainOf other := by
  unfold process
  split <;> rfl

@[simp] theorem ipv4Fragment?_process (other : Packet) :
    (session.process packet).1.ipv4Fragment? other = session.ipv4Fragment? other := by
  rw [ipv4Fragment?, chainOf_process, ipv4Fragment?]

@[simp] theorem ipv6Fragment?_process (other : Packet) :
    (session.process packet).1.ipv6Fragment? other = session.ipv6Fragment? other := by
  rw [ipv6Fragment?, chainOf_process, ipv6Fragment?]

theorem assemblers_process :
    (session.process packet).1.ipv4 =
        (onEnabled session.ipv4 (feed (session.ipv4Fragment? packet) (session.timeOf packet))).1 ∧
      (session.process packet).1.ipv6 =
        (onEnabled session.ipv6 (feed (session.ipv6Fragment? packet) (session.timeOf packet))).1 := by
  unfold process
  split <;> exact ⟨rfl, rfl⟩

theorem fragments_process :
    (session.process packet).2.fragments =
      (onEnabled session.ipv4
          (feed (session.ipv4Fragment? packet) (session.timeOf packet))).2.map .ipv4 ++
        (onEnabled session.ipv6
          (feed (session.ipv6Fragment? packet) (session.timeOf packet))).2.map .ipv6 := by
  unfold process
  split <;> rfl

/-- One of the two families of fragments: its assembler in a session, the fragment that a packet
has for it, and its events among those of both. -/
structure Family (κ : Type) [DecidableEq κ] where
  assembler : Session → Option (Assembler κ)
  fragment? : Session → Packet → Option (κ × Fragment)
  wrap : AssemblyEvent κ → FragmentEvent
  event? : FragmentEvent → Option (AssemblyEvent κ)
  isTerminal_wrap : ∀ event, (wrap event).isTerminal = event.isTerminal
  fragment?_process : ∀ session packet other,
    fragment? (process session packet).1 other = fragment? session other
  assembler_process : ∀ session packet,
    assembler (process session packet).1 =
      (onEnabled (assembler session) (feed (fragment? session packet) (timeOf session packet))).1
  events_process : ∀ session packet,
    (process session packet).2.fragments.filterMap event? =
      (onEnabled (assembler session) (feed (fragment? session packet) (timeOf session packet))).2

def ipv4Family : Family Ipv4.FragmentKey where
  assembler := Session.ipv4
  fragment? := ipv4Fragment?
  wrap := .ipv4
  event?
    | .ipv4 event => some event
    | .ipv6 _ => none
  isTerminal_wrap _ := rfl
  fragment?_process := ipv4Fragment?_process
  assembler_process session packet := (session.assemblers_process packet).1
  events_process session packet := by
    rw [fragments_process, List.filterMap_append, List.filterMap_map, List.filterMap_map]
    simp

def ipv6Family : Family Ipv6.FragmentKey where
  assembler := Session.ipv6
  fragment? := ipv6Fragment?
  wrap := .ipv6
  event?
    | .ipv4 _ => none
    | .ipv6 event => some event
  isTerminal_wrap _ := rfl
  fragment?_process := ipv6Fragment?_process
  assembler_process session packet := (session.assemblers_process packet).2
  events_process session packet := by
    rw [fragments_process, List.filterMap_append, List.filterMap_map, List.filterMap_map]
    simp

def after (session : Session) : List Packet → Session
  | [] => session
  | packet :: rest => (session.process packet).1.after rest

def outputs (session : Session) : List Packet → List ProcessedPacket
  | [] => []
  | packet :: rest => (session.process packet).2 :: (session.process packet).1.outputs rest

theorem after_concat (session : Session) (packets : List Packet) (last : Packet) :
    session.after (packets ++ [last]) = ((session.after packets).process last).1 := by
  induction packets generalizing session with
  | nil => rfl
  | cons packet rest ih => exact ih (session.process packet).1

theorem outputs_append (session : Session) (packets more : List Packet) :
    session.outputs (packets ++ more) =
      session.outputs packets ++ (session.after packets).outputs more := by
  induction packets generalizing session with
  | nil => rfl
  | cons packet rest ih =>
    simp only [List.cons_append, outputs, after]
    rw [ih]

namespace Family

variable {κ : Type} [DecidableEq κ] (family : Family κ)

def events (output : ProcessedPacket) : List (AssemblyEvent κ) :=
  output.fragments.filterMap family.event?

def request (session : Session) (packet : Packet) : AssemblyOperation κ :=
  Session.request (family.fragment? session packet) (session.timeOf packet)

def requests (family : Family κ) (session : Session) : List Packet → List (AssemblyOperation κ)
  | [] => []
  | packet :: rest =>
    family.request session packet :: family.requests (session.process packet).1 rest

theorem fragment?_after (session : Session) (packets : List Packet) (other : Packet) :
    family.fragment? (session.after packets) other = family.fragment? session other := by
  induction packets generalizing session with
  | nil => rfl
  | cons packet rest ih => rw [after, ih, family.fragment?_process]

section Enabled

variable {family} {session : Session} {assembler : Assembler κ}
  (h : family.assembler session = some assembler)

include h

theorem process_of_enabled (packet : Packet) :
    family.assembler (session.process packet).1 =
        some (assembler.apply (family.request session packet)).1 ∧
      family.events (session.process packet).2 =
        (assembler.apply (family.request session packet)).2 := by
  rw [family.assembler_process, events, family.events_process, h, request, ← feed_eq_apply]
  exact ⟨rfl, rfl⟩

theorem assembler_after (packets : List Packet) :
    family.assembler (session.after packets) =
      some (assembler.after (family.requests session packets)) := by
  induction packets generalizing session assembler with
  | nil => exact h
  | cons packet rest ih => exact ih (process_of_enabled h packet).1

theorem events_outputs (packets : List Packet) :
    (session.outputs packets).map family.events =
      (assembler.calls (family.requests session packets)).map AssemblyCall.events := by
  induction packets generalizing session assembler with
  | nil => rfl
  | cons packet rest ih =>
    obtain ⟨hnext, hfirst⟩ := process_of_enabled h packet
    simp only [outputs, requests, Assembler.calls, List.map_cons, ih hnext, hfirst]

theorem exists_call_of_output {packets : List Packet} {output : ProcessedPacket}
    (houtput : output ∈ session.outputs packets) :
    ∃ call ∈ assembler.calls (family.requests session packets),
      call.events = family.events output := by
  have hmem := List.mem_map_of_mem (f := family.events) houtput
  rw [events_outputs h] at hmem
  exact List.mem_map.1 hmem

end Enabled

variable {family}

/-- Packets that carry fragments ask for insertions. -/
theorem requests_of_fragments {ι : Type} {session : Session} {packet : ι → Packet} {key : κ}
    {fragment : ι → Fragment} {frames : List ι}
    (h : ∀ frame ∈ frames, family.fragment? session (packet frame) = some (key, fragment frame)) :
    family.requests session (frames.map packet) =
      frames.map (fun frame => .insert key (fragment frame)) := by
  induction frames generalizing session with
  | nil => rfl
  | cons frame rest ih =>
    have hfirst := h frame List.mem_cons_self
    have hlater : ∀ other ∈ rest,
        family.fragment? (session.process (packet frame)).1 (packet other) =
          some (key, fragment other) := by
      intro other hother
      rw [family.fragment?_process]
      exact h other (List.mem_cons_of_mem _ hother)
    simp only [List.map_cons, requests, ih hlater]
    rw [request, hfirst]
    rfl

/-- An insertion is asked for by a packet that carries the fragment. -/
theorem exists_packet_of_insert {session : Session} {packets : List Packet} {key : κ}
    {fragment : Fragment} (h : .insert key fragment ∈ family.requests session packets) :
    ∃ packet ∈ packets, family.fragment? session packet = some (key, fragment) := by
  induction packets generalizing session with
  | nil => cases h
  | cons packet rest ih =>
    rcases List.mem_cons.1 h with hfirst | hlater
    · refine ⟨packet, List.mem_cons_self, ?_⟩
      unfold request Session.request at hfirst
      split at hfirst
      · next found hfound =>
        cases hfirst
        exact hfound
      · cases hfirst
    · obtain ⟨other, hother, hfragment⟩ := ih hlater
      rw [family.fragment?_process] at hfragment
      exact ⟨other, List.mem_cons_of_mem _ hother, hfragment⟩

/-- No datagram of the family is under way. -/
def Idle (family : Family κ) (session : Session) : Prop :=
  ∀ assembler, family.assembler session = some assembler → assembler.sequences = []

theorem Idle.process {session : Session} {packet : Packet} (h : family.Idle session)
    (hnone : family.fragment? session packet = none) :
    family.Idle (session.process packet).1 ∧ family.events (session.process packet).2 = [] := by
  have hsilent :
      (onEnabled (family.assembler session) (feed none (session.timeOf packet))).2 = [] ∧
        ∀ assembler,
          (onEnabled (family.assembler session) (feed none (session.timeOf packet))).1 =
            some assembler → assembler.sequences = [] := by
    cases henabled : family.assembler session with
    | none => simp [onEnabled]
    | some assembler =>
      have hempty := h assembler henabled
      simp [onEnabled, feed, Assembler.advance, Assembler.timeOut, Idle.overdue, Idle.current,
        hempty]
  rw [Idle, events, family.assembler_process, family.events_process, hnone]
  exact ⟨hsilent.2, hsilent.1⟩

theorem Idle.outputs {session : Session} {packets : List Packet} (h : family.Idle session)
    (hnone : ∀ packet ∈ packets, family.fragment? session packet = none) :
    ∀ output ∈ session.outputs packets, family.events output = [] := by
  induction packets generalizing session with
  | nil => simp [Session.outputs]
  | cons packet rest ih =>
    obtain ⟨hidle, hfirst⟩ := h.process (hnone packet List.mem_cons_self)
    have hrest := ih hidle (by
      intro other hother
      rw [family.fragment?_process]
      exact hnone other (List.mem_cons_of_mem _ hother))
    rw [Session.outputs, List.forall_mem_cons]
    exact ⟨hfirst, hrest⟩

end Family

/-- What is reported of fragments comes from the two assemblers, first that for IPv4. -/
theorem fragments_of_output {session : Session} {packets : List Packet}
    {output : ProcessedPacket} (houtput : output ∈ session.outputs packets) :
    output.fragments =
      (ipv4Family.events output).map .ipv4 ++ (ipv6Family.events output).map .ipv6 := by
  induction packets generalizing session with
  | nil => cases houtput
  | cons packet rest ih =>
    rcases List.mem_cons.1 houtput with rfl | hlater
    · rw [Family.events, Family.events, ipv4Family.events_process, ipv6Family.events_process]
      exact session.fragments_process packet
    · exact ih hlater

/-- Without IPv6 fragments only the IPv4 assembler reports anything. -/
theorem ipv4_alone {session : Session} {packets : List Packet} (hidle : ipv6Family.Idle session)
    (hnone : ∀ packet ∈ packets, session.ipv6Fragment? packet = none) :
    ∀ output ∈ session.outputs packets,
      output.fragments = (ipv4Family.events output).map ipv4Family.wrap := by
  intro output houtput
  rw [fragments_of_output houtput, hidle.outputs hnone output houtput, List.map_nil,
    List.append_nil]
  rfl

/-- Without IPv4 fragments only the IPv6 assembler reports anything. -/
theorem ipv6_alone {session : Session} {packets : List Packet} (hidle : ipv4Family.Idle session)
    (hnone : ∀ packet ∈ packets, session.ipv4Fragment? packet = none) :
    ∀ output ∈ session.outputs packets,
      output.fragments = (ipv6Family.events output).map ipv6Family.wrap := by
  intro output houtput
  rw [fragments_of_output houtput, hidle.outputs hnone output houtput, List.map_nil,
    List.nil_append]
  rfl

end Session

end Dissection
