import Dissection.Proofs.Length
import Dissection.Proofs.Registry.Table
import Dissection.Proofs.Scan.Layout

/-!
# Truncated scans

A scan that stops because bytes are missing says how many it needs and how many there are. What
there is runs from the offset of the error to the end of the buffer, and it falls short of what is
needed, but for one case: a rule that reads a field of no readable width or alignment reports its
bytes as missing when all of them are there. No built-in protocol has such a rule.
-/

namespace Dissection

namespace FrozenRegistry

/-- The functions that measure the headers of a registry only ask for more bytes than they have. -/
def Honest (registry : FrozenRegistry) : Prop :=
  ∀ protocol descriptor, registry.lookup protocol = some descriptor → descriptor.length.Honest

/-- A scan that cannot find the length of a header stops in front of it, with bytes left. -/
theorem exists_unplaced_of_scan {registry : FrozenRegistry} {config : ScanConfig}
    {root : ProtocolId} {data : Bytes} {error : LengthError}
    (h : (registry.scan config root data).termination = .length error) :
    ∃ protocol descriptor offset, registry.lookup protocol = some descriptor ∧
      offset < data.length ∧ descriptor.length.resolve protocol data offset = .error error := by
  by_cases hroot : (!registry.contains root) = true ∨ root = .payload
  · rw [scan, if_pos hroot] at h
    cases h
  · by_cases hdata : data = []
    · rw [scan, if_neg hroot, if_pos hdata] at h
      cases h
    · obtain ⟨hknown, hpayload⟩ := not_or.1 hroot
      have hcontains : registry.contains root = true := by simpa using hknown
      have hfits := (registry.follows_walk data config.headerLimit config.headerLimit [] root 0
        (Nat.zero_add _) hcontains).fits (Nat.zero_le _) (List.length_pos_iff.2 hdata)
      rw [scan_of_registered registry config root data hcontains hpayload hdata] at h
      have hstopped : (registry.walk data config.headerLimit [] root 0).termination =
          .length error := h
      rw [hstopped] at hfits
      obtain ⟨-, hinside, protocol, descriptor, hlookup, hresolve⟩ := hfits
      exact ⟨protocol, descriptor, _, hlookup, hinside, hresolve⟩

variable {registry : FrozenRegistry} {config : ScanConfig} {root : ProtocolId} {data : Bytes}

/-- The report of a truncated scan counts the bytes up to the end of the buffer, and is right about
what is missing unless the rule of the header reads a field that no bytes answer. -/
theorem shortfall_of_scan (hhonest : registry.Honest) {protocol : ProtocolId}
    {offset needed available : Nat}
    (h : (registry.scan config root data).termination =
      .length (.truncated protocol offset needed available)) :
    ∃ descriptor, registry.lookup protocol = some descriptor ∧
      offset + available = data.length ∧
      (needed ≤ available ↔ descriptor.length.Unanswered available) := by
  obtain ⟨tried, descriptor, place, hlookup, hinside, hresolve⟩ := exists_unplaced_of_scan h
  obtain ⟨hproposed, rfl, rfl, rfl⟩ := LengthRule.resolve_eq_truncated_iff.1 hresolve
  have hneeded := LengthRule.needed_le_iff (hhonest _ _ hlookup) hproposed
  rw [List.length_drop] at hneeded
  exact ⟨descriptor, hlookup, by omega, hneeded⟩

/-- A scan that is truncated reports the bytes from its error to the end of the buffer, and fewer
than it needs, unless the rule of the header reads a field that no bytes answer. -/
theorem missing_of_isTruncated (registry : FrozenRegistry) (config : ScanConfig)
    (root : ProtocolId) (data : Bytes) (hhonest : registry.Honest)
    (htruncated : (registry.scan config root data).isTruncated = true) :
    ∃ protocol descriptor offset needed available,
      registry.lookup protocol = some descriptor ∧
        (registry.scan config root data).termination =
          .length (.truncated protocol offset needed available) ∧
        offset + available = data.length ∧
        (needed ≤ available ↔ descriptor.length.Unanswered available) := by
  cases htermination : (registry.scan config root data).termination with
  | endOfBuffer | noBinding | depthLimit | unknownRoot =>
    simp [HeaderChain.isTruncated, htermination] at htruncated
  | length error =>
    cases error with
    | overrun | malformed | unregistered =>
      simp [HeaderChain.isTruncated, htermination, LengthError.isTruncated] at htruncated
    | truncated protocol offset needed available =>
      obtain ⟨descriptor, hlookup, hrest, hneeded⟩ := shortfall_of_scan hhonest htermination
      exact ⟨protocol, descriptor, offset, needed, available, hlookup, rfl, hrest, hneeded⟩

section Unaligned

/-- The length of a header stands in eight bits across two bytes, in the order that needs whole
bytes. -/
def unaligned : FrozenRegistry where
  table := ⟨[(.payload, Registry.payloadDescriptor),
    (⟨1⟩, ⟨none, "unaligned", "unaligned", .fromField ⟨4, 8, .little⟩ 1 0 4, [], []⟩)]⟩
  edges := []
  edges_ranked := .nil
  edges_admitted := by simp

theorem honest_unaligned : unaligned.Honest := by
  intro protocol descriptor hlookup measure hmeasure
  have hmem := ProtocolTable.mem_of_lookup hlookup
  rcases List.mem_pair.1 hmem with heq | heq <;> cases heq <;> cases hmeasure

/-- Two bytes are needed, eight are there, and still the scan is truncated. -/
theorem unaligned_not_missing :
    ¬ ∀ (registry : FrozenRegistry) (config : ScanConfig) (root : ProtocolId) (data : Bytes),
      registry.Honest → ∀ protocol offset needed available,
        (registry.scan config root data).termination =
          .length (.truncated protocol offset needed available) →
        available < needed ∧ offset + available = data.length := by
  intro hmissing
  have h := hmissing unaligned {} ⟨1⟩ [1, 2, 3, 4, 5, 6, 7, 8] honest_unaligned ⟨1⟩ 0 2 8 rfl
  exact absurd h.1 (by decide)

theorem unaligned_unanswered :
    unaligned.Honest ∧
      (unaligned.scan {} ⟨1⟩ [1, 2, 3, 4, 5, 6, 7, 8]).isTruncated = true ∧
      ∃ protocol descriptor offset needed available,
        unaligned.lookup protocol = some descriptor ∧
          (unaligned.scan {} ⟨1⟩ [1, 2, 3, 4, 5, 6, 7, 8]).termination =
            .length (.truncated protocol offset needed available) ∧
          offset + available = 8 ∧
          (needed ≤ available ↔ descriptor.length.Unanswered available) :=
  ⟨honest_unaligned, rfl, missing_of_isTruncated unaligned {} ⟨1⟩ [1, 2, 3, 4, 5, 6, 7, 8]
    honest_unaligned rfl⟩

end Unaligned

end FrozenRegistry

namespace BuiltIn

/-- The built-in protocols that measure their headers ask for bytes that are missing. -/
theorem honest_lengthRule (protocol : BuiltIn) : protocol.lengthRule.Honest := by
  intro measure hmeasure tail shortfall herror
  cases protocol with
  | ethernet | vlan | ipv4 | ipv6 | ipv6Fragment | icmp | tcp | udp => cases hmeasure
  | arp =>
    cases hmeasure
    rw [Arp.measure] at herror
    split at herror
    · cases herror
    · next hmissing =>
      cases herror
      by_contra hheld
      have hlong : 5 < tail.length := Nat.le_of_not_lt hheld
      exact hmissing _ _ (List.getElem?_eq_getElem (Nat.lt_of_succ_lt hlong))
        (List.getElem?_eq_getElem hlong)
  | http =>
    cases hmeasure
    rw [Http.measure] at herror
    split at herror
    · cases herror
    · cases herror
      exact Nat.lt_succ_self _

theorem not_unanswered_lengthRule (protocol : BuiltIn) (available : Nat) :
    ¬ protocol.lengthRule.Unanswered available := by
  rintro ⟨source, scale, bias, minimum, hrule, hunreadable, -⟩
  have hwellFormed (field : BitField) (h : field.WellFormed) : field.Readable :=
    ⟨h.positive, h.narrow, fun horder => by simp [h.order] at horder⟩
  cases protocol with
  | ethernet | vlan | arp | ipv6 | ipv6Fragment | icmp | udp | http => cases hrule
  | ipv4 | tcp =>
    cases hrule
    exact hunreadable (hwellFormed _ (by decide))

end BuiltIn

namespace FrozenRegistry

variable {config : ScanConfig} {root : ProtocolId} {data : Bytes}

theorem length_of_lookup_builtIn {protocol : ProtocolId} {descriptor : ProtocolDescriptor}
    (h : builtIn.lookup protocol = some descriptor) :
    descriptor.length = .remaining ∨ ∃ known : BuiltIn, descriptor.length = known.lengthRule := by
  by_cases hpayload : protocol = .payload
  · subst hpayload
    cases h
    exact .inl rfl
  · have hcontains : builtIn.contains protocol = true :=
      Option.isSome_iff_exists.2 ⟨descriptor, h⟩
    obtain ⟨known, rfl⟩ := exists_builtIn hcontains hpayload
    obtain ⟨found, hfound, hlength⟩ := lookup_builtIn known
    rw [hfound] at h
    cases h
    exact .inr ⟨known, hlength⟩

theorem honest_builtIn : builtIn.Honest := by
  intro protocol descriptor hlookup
  rcases length_of_lookup_builtIn hlookup with hlength | ⟨known, hlength⟩
  · rw [hlength]
    intro measure hmeasure
    cases hmeasure
  · exact hlength ▸ known.honest_lengthRule

/-- The built-in protocols read no such field: what they report as missing is missing. -/
theorem shortfall_of_scan_builtIn {protocol : ProtocolId} {offset needed available : Nat}
    (h : (builtIn.scan config root data).termination =
      .length (.truncated protocol offset needed available)) :
    available < needed ∧ offset + available = data.length := by
  obtain ⟨descriptor, hlookup, hrest, hneeded⟩ := shortfall_of_scan honest_builtIn h
  have hanswered : ¬ descriptor.length.Unanswered available := by
    rcases length_of_lookup_builtIn hlookup with hlength | ⟨known, hlength⟩
    · rw [hlength]
      rintro ⟨_, _, _, _, hrule, -⟩
      cases hrule
    · rw [hlength]
      exact known.not_unanswered_lengthRule available
  exact ⟨Nat.lt_of_not_le (mt hneeded.1 hanswered), hrest⟩

end FrozenRegistry

end Dissection
