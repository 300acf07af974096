import Dissection.Proofs.Scan.Lookup

/-!
# Limits only cut a scan

A walk that may commit fewer headers commits the first headers of a walk that may commit more. The
limit is asked before the length of a header is, so it hides why the longer walk stopped, and
nothing else. The record of the unclaimed bytes is added when the walk is over, so leaving it out
changes no other part of the chain.
-/

namespace Dissection

/-- The walk with a header in front of it, whose edges have left diagnostics. -/
def Walk.behind (later : Walk) (current : HeaderRecord) (diagnostics : List Diagnostic) : Walk :=
  ⟨current :: later.headers, later.termination, diagnostics ++ later.diagnostics⟩

/-- What is left of the walk `whole` when no more than `limit` headers may be committed. -/
structure Walk.IsCutOf (short whole : Walk) (limit : Nat) : Prop where
  headers : short.headers = whole.headers.take limit
  diagnostics : short.diagnostics <+: whole.diagnostics
  eq_of_unlimited : short.termination ≠ .depthLimit → short = whole

namespace Walk.IsCutOf

variable {short whole : Walk} {limit : Nat}

theorem of_complete (whole : Walk) (h : whole.headers.length ≤ limit) :
    whole.IsCutOf whole limit where
  headers := (List.take_of_length_le h).symm
  diagnostics := List.prefix_rfl
  eq_of_unlimited _ := rfl

theorem behind (h : short.IsCutOf whole limit) (current : HeaderRecord)
    (diagnostics : List Diagnostic) :
    (short.behind current diagnostics).IsCutOf (whole.behind current diagnostics) (limit + 1) where
  headers := congrArg (current :: ·) h.headers
  diagnostics := (List.prefix_append_right_inj diagnostics).2 h.diagnostics
  eq_of_unlimited hopen := by rw [h.eq_of_unlimited hopen]

end Walk.IsCutOf

/-- A set without the unclaimed bytes holds the protocols of the headers. -/
theorem HeaderChain.contains_protocols_headers (chain : HeaderChain) (id : ProtocolId) :
    (ProtocolSet.ofList (chain.headers.map (·.protocol))).contains id =
      (chain.protocols.contains id && id != .payload) := by
  rw [Bool.eq_iff_iff, Bool.and_eq_true, bne_iff_ne, ProtocolSet.contains_ofList_iff, List.mem_map]
  constructor
  · rintro ⟨record, hrecord, rfl⟩
    have hclaimed : record.protocol ≠ .payload := by
      have hkept := (List.mem_filter.1 hrecord).2
      simpa [HeaderRecord.isPayload] using hkept
    exact ⟨(hasHeader_iff hclaimed).2 ⟨record, hrecord, rfl⟩, hclaimed⟩
  · rintro ⟨hcontains, hpayload⟩
    exact (hasHeader_iff hpayload).1 hcontains

namespace FrozenRegistry

/-- A walk stops at the next header, or goes on behind it. Neither depends on how many headers it
may still commit, as long as it may commit this one. -/
theorem walk_stops_or_goes_on (registry : FrozenRegistry) (data : Bytes)
    (earlier : List HeaderRecord) (protocol : ProtocolId) (offset : Nat) :
    (∃ last : Walk, last.headers.length ≤ 1 ∧
      ∀ budget, registry.walk data (budget + 1) earlier protocol offset = last) ∨
    ∃ current next diagnostics, ∀ budget,
      registry.walk data (budget + 1) earlier protocol offset =
        (registry.walk data budget (earlier ++ [current]) next current.stop).behind current
          diagnostics := by
  cases hlength : registry.headerLength protocol data offset with
  | error error =>
    left
    refine ⟨⟨[], .length error, []⟩, Nat.zero_le 1, fun budget => ?_⟩
    rw [walk, hlength]
  | ok length =>
    let current : HeaderRecord :=
      ⟨protocol, offset, length, earlier.countP (·.protocol = protocol)⟩
    by_cases hend : data.length ≤ current.stop
    · left
      refine ⟨⟨[current], .endOfBuffer, []⟩, Nat.le_refl 1, fun budget => ?_⟩
      rw [walk, hlength]
      exact if_pos hend
    · let selection := registry.selectNext ⟨data, earlier, current⟩
      cases htarget : selection.target with
      | none =>
        left
        refine ⟨⟨[current], .noBinding, selection.diagnostics⟩, Nat.le_refl 1, fun budget => ?_⟩
        rw [walk, hlength]
        simp only [current, selection] at hend htarget
        simp only [if_neg hend, htarget, current, selection]
      | some next =>
        right
        refine ⟨current, next, selection.diagnostics, fun budget => ?_⟩
        rw [walk, hlength]
        simp only [current, selection] at hend htarget
        simp only [if_neg hend, htarget, current, selection, Walk.behind]

theorem isCutOf_walk (registry : FrozenRegistry) (data : Bytes) {limit wider : Nat}
    (h : limit ≤ wider) (earlier : List HeaderRecord) (protocol : ProtocolId) (offset : Nat) :
    (registry.walk data limit earlier protocol offset).IsCutOf
      (registry.walk data wider earlier protocol offset) limit := by
  induction limit generalizing wider earlier protocol offset with
  | zero => exact ⟨rfl, List.nil_prefix, fun hopen => absurd rfl hopen⟩
  | succ limit ih =>
    -- Both limits allow one more header, so both walks take the same step.
    obtain ⟨wider, rfl⟩ : ∃ n, wider = n + 1 := ⟨wider - 1, by omega⟩
    rcases registry.walk_stops_or_goes_on data earlier protocol offset with
      ⟨last, hcount, hlast⟩ | ⟨current, next, diagnostics, hbehind⟩
    · rw [hlast, hlast]
      exact .of_complete last (by omega)
    · rw [hbehind, hbehind]
      exact (ih (by omega) _ _ _).behind current diagnostics

/-- A scan starts a walk, or it is over at once, whatever the configuration. -/
theorem walks_or_constant (registry : FrozenRegistry) (root : ProtocolId) (data : Bytes) :
    (registry.contains root = true ∧ root ≠ .payload ∧ data ≠ []) ∨
      ∃ chain : HeaderChain, chain.records = [] ∧
        ∀ config, registry.scan config root data = chain := by
  by_cases hroot : registry.contains root ∧ root ≠ .payload
  · by_cases hdata : data = []
    · right
      refine ⟨⟨0, [], .endOfBuffer, []⟩, rfl, fun config => ?_⟩
      rw [scan, if_neg (by simp [hroot]), if_pos hdata]
    · exact .inl ⟨hroot.1, hroot.2, hdata⟩
  · right
    refine ⟨⟨data.length, [], .unknownRoot root, []⟩, rfl, fun config => ?_⟩
    rw [scan, if_pos (by simpa [Decidable.imp_iff_not_or] using hroot)]

theorem scan_hiding_payload (registry : FrozenRegistry) (config : ScanConfig) (root : ProtocolId)
    (data : Bytes) :
    registry.scan { config with emitPayload := false } root data =
      { registry.scan { config with emitPayload := true } root data with
        records := (registry.scan { config with emitPayload := true } root data).headers } := by
  rcases registry.walks_or_constant root data with ⟨hroot, hpayload, hdata⟩ | ⟨chain, hnone, hchain⟩
  · rw [headers_scan registry _ root data hroot hpayload hdata,
      scan_of_registered registry _ root data hroot hpayload hdata,
      scan_of_registered registry _ root data hroot hpayload hdata]
    simp [ScanConfig.headerLimit]
  · rw [hchain, hchain, HeaderChain.headers, hnone]
    obtain ⟨bufferLength, records, termination, diagnostics⟩ := chain
    cases hnone
    rfl

theorem scan_isCutOf (registry : FrozenRegistry) (root : ProtocolId) (data : Bytes)
    {config wider : ScanConfig} (hlimit : config.maxHeaders ≤ wider.maxHeaders) :
    (registry.scan config root data).walk.IsCutOf (registry.scan wider root data).walk
      config.headerLimit := by
  rcases registry.walks_or_constant root data with ⟨hroot, hpayload, hdata⟩ | ⟨chain, hnone, hchain⟩
  · have hlimits : config.headerLimit ≤ wider.headerLimit := by
      unfold ScanConfig.headerLimit
      omega
    rw [walk_scan registry config root data hroot hpayload hdata,
      walk_scan registry wider root data hroot hpayload hdata]
    exact registry.isCutOf_walk data hlimits [] root 0
  · rw [hchain, hchain]
    refine .of_complete _ ?_
    rw [HeaderChain.walk, HeaderChain.headers, hnone]
    exact Nat.zero_le _

theorem scan_eq_walk (registry : FrozenRegistry) (config : ScanConfig) (root : ProtocolId)
    (data : Bytes) (hroot : registry.contains root) (hpayload : root ≠ .payload)
    (hdata : data ≠ []) :
    registry.scan config root data =
      let walk := (registry.scan config root data).walk
      ⟨data.length, walk.headers ++ (if config.emitPayload then unclaimed walk data.length else []),
        walk.termination, walk.diagnostics⟩ := by
  rw [walk_scan registry config root data hroot hpayload hdata,
    scan_of_registered registry config root data hroot hpayload hdata]

/-- A chain is told by its walk when it is known whether unclaimed bytes get a record. -/
theorem scan_eq_of_walk_eq (registry : FrozenRegistry) (root : ProtocolId) (data : Bytes)
    {config other : ScanConfig} (hemit : config.emitPayload = other.emitPayload)
    (hwalk : (registry.scan config root data).walk = (registry.scan other root data).walk) :
    registry.scan config root data = registry.scan other root data := by
  rcases registry.walks_or_constant root data with ⟨hroot, hpayload, hdata⟩ | ⟨chain, -, hchain⟩
  · rw [scan_eq_walk registry config root data hroot hpayload hdata,
      scan_eq_walk registry other root data hroot hpayload hdata, hwalk, hemit]
  · rw [hchain, hchain]

/-- A scan that may commit fewer headers commits the first of those that a scan with a wider limit
commits, and the two are the same unless the limit stops the first one. Whether unclaimed bytes get
a record makes no other difference. -/
theorem limits_only_cut (registry : FrozenRegistry) (root : ProtocolId) (data : Bytes)
    {config wider : ScanConfig} (hlimit : config.maxHeaders ≤ wider.maxHeaders)
    (hemit : config.emitPayload = wider.emitPayload) :
    ((registry.scan config root data).headers =
        (registry.scan wider root data).headers.take (min config.maxHeaders 65535) ∧
      (registry.scan config root data).diagnostics <+: (registry.scan wider root data).diagnostics ∧
      ((registry.scan config root data).termination ≠ .depthLimit →
        registry.scan config root data = registry.scan wider root data)) ∧
    ∀ config : ScanConfig,
      let shown := registry.scan { config with emitPayload := true } root data
      let hidden := registry.scan { config with emitPayload := false } root data
      hidden = { shown with records := shown.headers } ∧
        ∀ id, hidden.protocols.contains id = (shown.protocols.contains id && id != .payload) := by
  have hcut := registry.scan_isCutOf root data hlimit
  refine ⟨⟨hcut.headers, hcut.diagnostics, fun hopen => ?_⟩, fun config => ?_⟩
  · exact registry.scan_eq_of_walk_eq root data hemit (hcut.eq_of_unlimited hopen)
  · intro shown hidden
    have hhidden : hidden = { shown with records := shown.headers } :=
      registry.scan_hiding_payload config root data
    refine ⟨hhidden, fun id => ?_⟩
    rw [hhidden]
    exact shown.contains_protocols_headers id

/-- With room for one header `nested` commits the outer one, whose edges have left their diagnostic
already; the inner one becomes unclaimed bytes. -/
theorem nested_cut :
    let short : ScanConfig := { maxHeaders := 1 }
    let data : Bytes := [1, 0, 2, 9, 7]
    (short.maxHeaders ≤ ({} : ScanConfig).maxHeaders ∧
        short.emitPayload = ({} : ScanConfig).emitPayload) ∧
      nested.scan short ⟨1⟩ data =
        ⟨5, [⟨⟨1⟩, 0, 2, 0⟩, ⟨.payload, 2, 3, 0⟩], .depthLimit,
          [⟨⟨1⟩, ⟨2⟩, 0, .failed "no answer"⟩]⟩ ∧
      (nested.scan short ⟨1⟩ data).headers =
        (nested.scan {} ⟨1⟩ data).headers.take (min 1 65535) ∧
      (nested.scan short ⟨1⟩ data).diagnostics <+: (nested.scan {} ⟨1⟩ data).diagnostics := by
  intro short data
  have hlimit : short.maxHeaders ≤ ({} : ScanConfig).maxHeaders := by decide
  have hemit : short.emitPayload = ({} : ScanConfig).emitPayload := rfl
  obtain ⟨⟨hheaders, hdiagnostics, -⟩, -⟩ :=
    limits_only_cut nested ⟨1⟩ data hlimit hemit
  exact ⟨⟨hlimit, hemit⟩, by decide, hheaders, hdiagnostics⟩

end FrozenRegistry

end Dissection
