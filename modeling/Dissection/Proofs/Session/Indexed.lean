import Dissection.Proofs.Reassembly.Indexed.Run
import Dissection.Proofs.Session.Run

/-!
# Sessions behind which there are indexed assemblers

The packets of a capture ask something of each assembler that is enabled, and the flush at the end
asks for one thing more. Indexed assemblers that are asked the same report the same, of every packet
and of the flush, and stand for the assemblers of the session all along.
-/

namespace Dissection.Session

namespace Family

variable {κ : Type} [DecidableEq κ] (family : Family κ)

/-- The indexed assembler of the family after the packets of a capture. -/
def indexed (config : AssemblyConfig) (session : Session) (packets : List Packet) :
    IndexedAssembler κ :=
  (IndexedAssembler.ofConfig config).after (family.requests session packets)

/-- What it reports of the packets and of the flush behind them, when the family is enabled. -/
def indexedReports (enabled : Bool) (config : AssemblyConfig) (session : Session)
    (packets : List Packet) : List (List (AssemblyEvent κ)) :=
  let requests := family.requests session packets ++ [.flush]
  if enabled then ((IndexedAssembler.ofConfig config).calls requests).map AssemblyCall.events
  else requests.map (fun _ => [])

def flushed (session : Session) : List (AssemblyEvent κ) :=
  (onEnabled (family.assembler session) (·.flush)).2

variable {family} {session : Session} {config : AssemblyConfig}

theorem process_of_disabled (h : family.assembler session = none) (packet : Packet) :
    family.assembler (session.process packet).1 = none ∧
      family.events (session.process packet).2 = [] := by
  rw [family.assembler_process, events, family.events_process, h]
  exact ⟨rfl, rfl⟩

theorem outputs_of_disabled (h : family.assembler session = none) (packets : List Packet) :
    family.assembler (session.after packets) = none ∧
      (session.outputs packets).map family.events =
        (family.requests session packets).map (fun _ => []) := by
  induction packets generalizing session with
  | nil => exact ⟨h, rfl⟩
  | cons packet rest ih =>
    obtain ⟨hnext, hfirst⟩ := process_of_disabled h packet
    obtain ⟨hafter, houtputs⟩ := ih hnext
    refine ⟨hafter, ?_⟩
    simp only [outputs, requests, List.map_cons, hfirst, houtputs]

/-- An assembler that is enabled from the start reports what an indexed one reports, and is
represented by it; one that is not reports nothing. -/
theorem indexed_of_start {enabled : Bool}
    (h : family.assembler session = if enabled then some (.ofConfig config) else none)
    (packets : List Packet) :
    (session.outputs packets).map family.events ++ [family.flushed (session.after packets)] =
        family.indexedReports enabled config session packets ∧
      ∀ assembler ∈ family.assembler (session.after packets),
        (family.indexed config session packets).Represents assembler := by
  cases enabled with
  | true =>
    have hafter := assembler_after h packets
    constructor
    · simp only [flushed, hafter, events_outputs h, indexedReports, if_true]
      rw [IndexedAssembler.calls_eq, Assembler.calls_concat, List.map_append]
      rfl
    · rw [hafter]
      rintro _ ⟨rfl⟩
      exact IndexedAssembler.represents_after config _
  | false =>
    obtain ⟨hafter, houtputs⟩ := outputs_of_disabled h packets
    constructor
    · simp only [flushed, hafter, houtputs, indexedReports, Bool.false_eq_true, if_false,
        List.map_append]
      rfl
    · rw [hafter]
      rintro _ ⟨⟩

end Family

/-- The assemblers of a session may be indexed ones. What the session reports of the fragments in
its packets and in the flush at the end is what these report, and those that are enabled are
represented by them after every packet. -/
theorem session_indexed (registry : FrozenRegistry) (root : ProtocolId) (config : SessionConfig)
    (packets : List Packet) :
    let session := start registry root config
    (session.outputs packets).map ProcessedPacket.fragments ++ [(session.after packets).flush.2] =
        List.zipWith (fun ipv4 ipv6 => ipv4.map .ipv4 ++ ipv6.map .ipv6)
          (ipv4Family.indexedReports config.assemblesIpv4 config.assembly session packets)
          (ipv6Family.indexedReports config.assemblesIpv6 config.assembly session packets) ∧
      (∀ assembler ∈ (session.after packets).ipv4,
        (ipv4Family.indexed config.assembly session packets).Represents assembler) ∧
      ∀ assembler ∈ (session.after packets).ipv6,
        (ipv6Family.indexed config.assembly session packets).Represents assembler := by
  intro session
  have hstart4 : ipv4Family.assembler session =
      if config.assemblesIpv4 then some (.ofConfig config.assembly) else none := rfl
  have hstart6 : ipv6Family.assembler session =
      if config.assemblesIpv6 then some (.ofConfig config.assembly) else none := rfl
  obtain ⟨hreports4, hrepresents4⟩ := Family.indexed_of_start hstart4 packets
  obtain ⟨hreports6, hrepresents6⟩ := Family.indexed_of_start hstart6 packets
  refine ⟨?_, hrepresents4, hrepresents6⟩
  have houtputs : (session.outputs packets).map ProcessedPacket.fragments =
      (session.outputs packets).map (fun output =>
        (ipv4Family.events output).map .ipv4 ++ (ipv6Family.events output).map .ipv6) :=
    List.map_congr_left (fun output houtput => fragments_of_output houtput)
  rw [← hreports4, ← hreports6, List.zipWith_append (by simp), List.zipWith_map,
    List.zipWith_self, houtputs]
  rfl

end Dissection.Session
