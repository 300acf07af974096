import Dissection.Proofs.Scan.BuiltIn

/-!
# Scans of IPv6 fragments

An IPv6 header that announces a fragment header is followed by one, and behind that only transport
protocols may come: a scan of an Ethernet frame with an IPv6 fragment shows three headers that are
known in advance.
-/

namespace Dissection.FrozenRegistry

variable {context : BindingContext}

theorem ipv6_wins (htype : context.field Ethernet.etherType = .ok EtherType.ipv6) :
    context.Wins (builtIn.bindingsFrom BuiltIn.ethernet.id)
      ⟨BuiltIn.ethernet.id, BuiltIn.ipv6.id, 0, 1,
        .fieldEquals Ethernet.etherType EtherType.ipv6⟩ := by
  rw [bindingsFrom_ethernet]
  refine ⟨by simp, Predicate.fieldEquals_eq_true_iff.2 htype, ?_⟩
  intro edge hedge hbefore hholds
  simp only [List.mem_cons, List.not_mem_nil, or_false] at hedge
  rcases hedge with rfl | rfl | rfl | rfl
  · rw [Predicate.fieldEquals_eq_true_iff, htype] at hholds
    cases hholds
  · exact absurd hbefore (by decide)
  · exact absurd hbefore (by decide)
  · exact absurd hbefore (by decide)

def ipv6Edge (sequence : Nat) (target : BuiltIn) (number : Nat) : Binding :=
  ⟨BuiltIn.ipv6.id, target.id, 0, sequence, .fieldEquals Ipv6.nextHeader number⟩

theorem bindingsFrom_ipv6 :
    builtIn.bindingsFrom BuiltIn.ipv6.id =
      [ipv6Edge 13 .tcp Internet.Number.tcp, ipv6Edge 14 .udp Internet.Number.udp,
        ipv6Edge 15 .ipv6Fragment Internet.Number.ipv6Fragment,
        ipv6Edge 16 .ipv4 Internet.Number.ipv4, ipv6Edge 17 .ipv6 Internet.Number.ipv6] := rfl

theorem fragment_wins
    (hnext : context.field Ipv6.nextHeader = .ok Internet.Number.ipv6Fragment) :
    context.Wins (builtIn.bindingsFrom BuiltIn.ipv6.id)
      (ipv6Edge 15 .ipv6Fragment Internet.Number.ipv6Fragment) := by
  rw [bindingsFrom_ipv6]
  refine ⟨by simp, Predicate.fieldEquals_eq_true_iff.2 hnext, ?_⟩
  intro edge hedge hbefore hholds
  -- the edges tried before ask for another number
  have hother (number : Nat) (hne : number ≠ Internet.Number.ipv6Fragment) :
      Predicate.fieldEquals Ipv6.nextHeader number context ≠ .ok true := by
    rw [Ne, Predicate.fieldEquals_eq_true_iff, hnext]
    exact fun heq => hne (Except.ok.inj heq).symm
  simp only [List.mem_cons, List.not_mem_nil, or_false] at hedge
  rcases hedge with rfl | rfl | rfl | rfl | rfl
  · exact hother _ (by decide) hholds
  · exact hother _ (by decide) hholds
  · exact absurd hbefore (by decide)
  · exact absurd hbefore (by decide)
  · exact absurd hbefore (by decide)

theorem transport_of_ipv6Fragment :
    ∀ edge ∈ builtIn.bindingsFrom BuiltIn.ipv6Fragment.id, IsTransport edge.target := by
  decide

/-- The record of the IPv6 header behind the link header of a frame. -/
def front : HeaderRecord := ⟨BuiltIn.ipv6.id, Ethernet.headerLength, Ipv6.headerLength, 0⟩

def extension : HeaderRecord :=
  ⟨BuiltIn.ipv6Fragment.id, Ethernet.headerLength + Ipv6.headerLength,
    Ipv6Fragment.headerLength, 0⟩

/-- The headers of an Ethernet frame that carries an IPv6 fragment. -/
theorem exists_behind_fragment {config : ScanConfig} {data : Bytes}
    (hlimit : 3 ≤ config.maxHeaders)
    (htype : Ethernet.etherType.read (data.take Ethernet.headerLength) = .ok EtherType.ipv6)
    (hnext : Ipv6.nextHeader.read (HeaderView.bytes ⟨data, front⟩) =
      .ok Internet.Number.ipv6Fragment)
    (hfit : extension.stop ≤ data.length) :
    ∃ inner, (builtIn.scan config BuiltIn.ethernet.id data).headers =
        link :: front :: extension :: inner ∧
      ∀ record ∈ inner, IsTransport record.protocol := by
  have hstops : Ethernet.headerLength < front.stop ∧ front.stop < extension.stop := by decide
  have hfront : builtIn.Places data [link] BuiltIn.ipv6.id Ethernet.headerLength front :=
    places_builtIn .ipv6 (LengthRule.resolve_fixed _ (by decide)
      (Nat.le_trans (Nat.le_of_lt hstops.2) hfit))
  have hextension : builtIn.Places data [link, front] BuiltIn.ipv6Fragment.id front.stop
      extension :=
    places_builtIn .ipv6Fragment (LengthRule.resolve_fixed _ (by decide) hfit)
  -- three headers are within the limit
  obtain ⟨budget, hbudget⟩ : ∃ budget, config.headerLimit = budget + 3 :=
    ⟨config.headerLimit - 3, by unfold ScanConfig.headerLimit; omega⟩
  obtain ⟨inner, hinner, hbehind⟩ := exists_inner_of_places budget hextension
  have hwalk : (builtIn.walk data (budget + 2) [link] BuiltIn.ipv6.id
      Ethernet.headerLength).headers = front :: extension :: inner :=
    (headers_of_wins (budget + 1) hfront (by omega) (fragment_wins hnext)).trans
      (congrArg (front :: ·) hinner)
  refine ⟨inner, ?_, ?_⟩
  · rw [headers_behind_link hbudget (by omega) (ipv6_wins htype)]
    exact congrArg (link :: ·) hwalk
  · rcases hbehind with rfl | ⟨winner, hwins, rfl⟩
    · simp
    · have hfollows := builtIn.follows_walk data (budget + 3) budget [link, front, extension]
        winner.target extension.stop (Nat.add_comm 3 budget)
        (target_of_mem_bindingsFrom hwins.tried).1
      exact hfollows.stays transport_closed (transport_of_ipv6Fragment winner hwins.tried)

end Dissection.FrozenRegistry
