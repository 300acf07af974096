import Dissection.Proofs.ProtocolBits
import Dissection.Proofs.Scan.Lookup
import Dissection.Scan.Indexed

/-!
# Chains with an index

A scan that records header by header keeps its set of protocols and the numbers of its records true
to the records: the set holds the protocols of the records, and since the scan stops at 65535
headers, every record has the number of records of its protocol before it. So such a scan yields
the chain of the scan that knows all headers at once, and its lookups tell what is in the records.
-/

namespace Dissection

open HeaderRecord (counted_append)

namespace IndexedChain

def ofChain (chain : HeaderChain) : IndexedChain :=
  ⟨chain, .ofList (chain.records.map (·.protocol))⟩

/-- What a chain answers to those who ask for headers, compared with its records in the buffer
`data`. A record has an ordinal of less than 65535, so it fits into 16 bits with one number left. -/
structure AnswersFor (chain : IndexedChain) (data : Bytes) : Prop where
  present_iff : ∀ protocol, chain.hasHeader protocol = true ↔ 0 < chain.instanceCount protocol
  outermost_iff : ∀ protocol,
    0 < chain.instanceCount protocol ↔ (chain.header? protocol 0).isSome = true
  count : ∀ protocol,
    chain.instanceCount protocol = (chain.records.filter (·.protocol = protocol)).length
  header : ∀ protocol ordinal,
    chain.header? protocol ordinal = (chain.records.filter (·.protocol = protocol))[ordinal]?
  ordinal : ∀ before record after, chain.records = before ++ record :: after →
    record.ordinal = before.countP (·.protocol = record.protocol) ∧ record.ordinal < 65535
  distinct : chain.protocols.size = (chain.records.map (·.protocol)).toFinset.card
  view : ∀ protocol ordinal,
    chain.view? data protocol ordinal = (chain.header? protocol ordinal).map (⟨data, ·⟩)
  parts : ∀ record ∈ chain.records, ∃ front, front.length = record.offset ∧
    (HeaderView.mk data record).bytes.length = record.length ∧
    data = front ++ (HeaderView.mk data record).bytes ++ (HeaderView.mk data record).payload

theorem hasHeader_ofChain (chain : HeaderChain) (protocol : ProtocolId) :
    (ofChain chain).hasHeader protocol = chain.hasHeader protocol := by
  rw [Bool.eq_iff_iff, HeaderChain.hasHeader_iff_mem, hasHeader, ofChain,
    ProtocolBits.contains_ofList_iff, List.mem_map]

theorem header?_ofChain (chain : HeaderChain) (protocol : ProtocolId) (ordinal : Nat) :
    (ofChain chain).header? protocol ordinal = chain.header? protocol ordinal := by
  rw [header?, hasHeader_ofChain]
  rfl

theorem view?_ofChain (chain : HeaderChain) (data : Bytes) (protocol : ProtocolId) (ordinal : Nat) :
    (ofChain chain).view? data protocol ordinal = chain.view? data protocol ordinal := by
  rw [view?, header?_ofChain]
  rfl

/-- The chain of a scan under way, which has committed `headers` so far. -/
def underWay (data : Bytes) (headers : List HeaderRecord) : IndexedChain :=
  ofChain ⟨data.length, headers, .endOfBuffer, []⟩

def ofWalk (config : ScanConfig) (data : Bytes) (walk : Walk) : IndexedChain :=
  ofChain ⟨data.length,
    walk.headers ++ (if config.emitPayload then FrozenRegistry.unclaimed walk data.length else []),
    walk.termination, walk.diagnostics⟩

/-- No record of unclaimed bytes follows when the headers end the buffer or one has no length. -/
theorem finish_underWay (config : ScanConfig) (data : Bytes) (headers : List HeaderRecord)
    (termination : Termination) (hbinding : termination ≠ .noBinding)
    (hlimit : termination ≠ .depthLimit) (diagnostics : List Diagnostic) :
    (underWay data headers).finish termination diagnostics =
      ofWalk config data ⟨headers, termination, diagnostics⟩ := by
  have hnone : FrozenRegistry.unclaimed ⟨headers, termination, diagnostics⟩ data.length = [] :=
    if_neg (by simp [hbinding, hlimit])
  rw [ofWalk, hnone, ite_self, List.append_nil]
  rfl

theorem recordFor_underWay (data : Bytes) (headers : List HeaderRecord) (protocol : ProtocolId)
    (offset length : Nat) :
    (underWay data headers).recordFor protocol offset length =
      ⟨protocol, offset, length, min (headers.countP (·.protocol = protocol)) 65535⟩ := rfl

theorem push_underWay (data : Bytes) (headers : List HeaderRecord) (protocol : ProtocolId)
    (offset length : Nat) :
    (underWay data headers).push protocol offset length =
      underWay data (headers ++ [(underWay data headers).recordFor protocol offset length]) := by
  simp [push, underWay, ofChain, ProtocolBits.ofList, List.foldl_append, recordFor]

variable (data : Bytes) {headers : List HeaderRecord}
  (hclaimed : ∀ record ∈ headers, record.isPayload = false)

include hclaimed

theorem headerCount_underWay : (underWay data headers).headerCount = headers.length :=
  congrArg List.length (List.filter_eq_self.2 (by simpa [underWay, ofChain] using hclaimed))

theorem lastHeader?_underWay : (underWay data headers).lastHeader? = headers.getLast? :=
  congrArg List.getLast? (List.filter_eq_self.2 (by simpa [underWay, ofChain] using hclaimed))

/-- The bytes behind the last header are unclaimed when no header is looked for in them. -/
theorem finish_pushUnclaimed (config : ScanConfig) {termination : Termination}
    (hopen : termination = .noBinding ∨ termination = .depthLimit) (diagnostics : List Diagnostic) :
    ((underWay data headers).pushUnclaimed config
        ((headers.getLast?.map (·.stop)).getD 0)).finish termination diagnostics =
      ofWalk config data ⟨headers, termination, diagnostics⟩ := by
  have hnone : headers.countP (·.protocol = .payload) = 0 := by
    refine List.countP_eq_zero.2 fun record hrecord => ?_
    simpa [HeaderRecord.isPayload] using hclaimed record hrecord
  by_cases hwanted : config.emitPayload = true
  · by_cases hleft : (headers.getLast?.map (·.stop)).getD 0 < data.length
    · rw [pushUnclaimed, if_pos ⟨hwanted, hleft⟩, ofWalk, if_pos hwanted, FrozenRegistry.unclaimed,
        if_pos ⟨hopen, hleft⟩, push_underWay, recordFor_underWay, hnone]
      rfl
    · rw [pushUnclaimed, if_neg (fun h => hleft h.2), ofWalk, if_pos hwanted,
        FrozenRegistry.unclaimed, if_neg (fun h => hleft h.2), List.append_nil]
      rfl
  · rw [pushUnclaimed, if_neg (fun h => hwanted h.1), ofWalk, if_neg hwanted, List.append_nil]
    rfl

end IndexedChain

namespace FrozenRegistry

open IndexedChain (ofChain ofWalk underWay)

variable {registry : FrozenRegistry} {config : ScanConfig} {data : Bytes}

section Step

variable {headers : List HeaderRecord} {protocol : ProtocolId} {offset : Nat}
  {current : HeaderRecord} (diagnostics : List Diagnostic)
  (hroom : headers.length < config.headerLimit)
  (hclaimed : ∀ record ∈ headers ++ [current], record.isPayload = false)
  (hplaced : registry.Places data headers protocol offset current)

include hroom hclaimed hplaced

/-- A header that can be placed is committed as it is placed: fewer than 65535 are there, so that
its number is their count. -/
theorem extend_of_places :
    registry.extend config data (underWay data headers) diagnostics protocol offset =
      if data.length ≤ current.stop then
        (underWay data (headers ++ [current])).finish .endOfBuffer diagnostics
      else
        let selection := registry.selectNext ⟨data, headers, current⟩
        match selection.target with
        | some target => registry.extend config data (underWay data (headers ++ [current]))
            (diagnostics ++ selection.diagnostics) target current.stop
        | none => ofWalk config data
            ⟨headers ++ [current], .noBinding, diagnostics ++ selection.diagnostics⟩ := by
  have hopen : ¬ config.headerLimit ≤ (underWay data headers).headerCount := by
    rw [IndexedChain.headerCount_underWay data fun record hrecord =>
      hclaimed record (List.mem_append_left _ hrecord)]
    exact Nat.not_le.2 hroom
  have hnumber : headers.countP (·.protocol = protocol) ≤ 65535 := by
    have hcount : headers.countP (·.protocol = protocol) ≤ headers.length := List.countP_le_length
    unfold ScanConfig.headerLimit at hroom
    omega
  have hlast : (headers ++ [current]).getLast? = some current := List.getLast?_concat
  have hfinish := IndexedChain.finish_pushUnclaimed data hclaimed config (.inl rfl)
  have hinner := IndexedChain.lastHeader?_underWay data hclaimed
  obtain ⟨descriptor, length, hlookup, hresolve, hcurrent⟩ := hplaced
  have hrecord : (underWay data headers).recordFor protocol offset length = current := by
    rw [IndexedChain.recordFor_underWay, Nat.min_eq_left hnumber, hcurrent]
  rw [← headerLength_of_lookup hlookup] at hresolve
  rw [extend, if_neg hopen]
  split
  · next error hlength => simp [hresolve] at hlength
  · next found hlength =>
    obtain rfl : length = found := by simpa [hresolve] using hlength
    rw [IndexedChain.push_underWay, hrecord]
    by_cases hend : data.length ≤ current.stop
    · rw [dif_pos hend, if_pos hend]
    · have hcontext : BindingContext.ofHeaders? data (underWay data (headers ++ [current])).records =
          some ⟨data, headers, current⟩ := by
        change BindingContext.ofHeaders? data (headers ++ [current]) = _
        rw [BindingContext.ofHeaders?, hlast]
        simp [Nat.le_of_not_le hend]
      rw [dif_neg hend, if_neg hend, hcontext]
      dsimp only
      cases (registry.selectNext ⟨data, headers, current⟩).target with
      | some target => rfl
      | none =>
        simp only [hinner, hlast]
        simpa [hlast] using hfinish _

end Step

/-- A scan header by header follows the rules from wherever it is, and keeps what it has. -/
theorem Follows.extend_eq {earlier : List HeaderRecord} {protocol : ProtocolId} {offset : Nat}
    {outcome : Walk}
    (h : registry.Follows data config.headerLimit earlier protocol offset outcome)
    (hearlier : ∀ record ∈ earlier, record.isPayload = false) (hprotocol : protocol ≠ .payload)
    (hoffset : offset = (earlier.getLast?.map (·.stop)).getD 0)
    (diagnostics : List Diagnostic) :
    registry.extend config data (underWay data earlier) diagnostics protocol offset =
      ofWalk config data ⟨earlier ++ outcome.headers, outcome.termination,
        diagnostics ++ outcome.diagnostics⟩ := by
  have hcommitted {earlier : List HeaderRecord} {protocol : ProtocolId} {offset : Nat}
      {current : HeaderRecord} (hplaced : registry.Places data earlier protocol offset current)
      (hprotocol : protocol ≠ .payload) (hearlier : ∀ record ∈ earlier, record.isPayload = false) :
      ∀ record ∈ earlier ++ [current], record.isPayload = false := by
    simpa [or_imp, forall_and, HeaderRecord.isPayload, hplaced.protocol_eq, hprotocol] using hearlier
  induction h generalizing diagnostics with
  | limited hfull =>
    rw [extend, if_pos (by rwa [IndexedChain.headerCount_underWay data hearlier]), hoffset,
      IndexedChain.finish_pushUnclaimed data hearlier config (.inr rfl), List.append_nil,
      List.append_nil]
  | @unplaced earlier protocol offset _ _ hroom hlookup hlength =>
    have hopen : ¬ config.headerLimit ≤ (underWay data earlier).headerCount := by
      rw [IndexedChain.headerCount_underWay data hearlier]
      exact Nat.not_le.2 hroom
    rw [← headerLength_of_lookup hlookup] at hlength
    rw [extend, if_neg hopen]
    split
    · next error herror =>
      obtain rfl : _ = error := by simpa [hlength] using herror
      rw [IndexedChain.finish_underWay config data _ _ (by simp) (by simp), List.append_nil,
        List.append_nil]
    · next found hfound => simp [hlength] at hfound
  | ended hroom hplaced hend =>
    rw [extend_of_places diagnostics hroom (hcommitted hplaced hprotocol hearlier) hplaced,
      if_pos hend, List.append_nil]
    exact IndexedChain.finish_underWay config data _ .endOfBuffer (by simp) (by simp) _
  | @unbound earlier protocol _ current hroom hplaced hrest hnone =>
    have hselect : registry.selectNext ⟨data, earlier, current⟩ =
        ⟨none, BindingContext.faults ⟨data, earlier, current⟩ (registry.bindingsFrom protocol)⟩ := by
      rw [selectNext, hplaced.protocol_eq]
      exact BindingContext.select_of_none _ _ hnone
    rw [extend_of_places diagnostics hroom (hcommitted hplaced hprotocol hearlier) hplaced,
      if_neg (Nat.not_le.2 hrest), hselect]
  | @bound earlier protocol _ current winner later hroom hplaced hrest hwins hlater ih =>
    have hclaimed := hcommitted hplaced hprotocol hearlier
    have hselect : registry.selectNext ⟨data, earlier, current⟩ =
        ⟨some winner.target, BindingContext.faults ⟨data, earlier, current⟩
          ((registry.bindingsFrom protocol).filter (·.Before winner))⟩ := by
      rw [selectNext, hplaced.protocol_eq]
      exact BindingContext.select_of_wins _ _ _ (registry.bindingsFrom_ranked protocol) hwins
    rw [extend_of_places diagnostics hroom hclaimed hplaced, if_neg (Nat.not_le.2 hrest), hselect]
    refine (ih hclaimed (target_of_mem_bindingsFrom hwins.tried).2 (by simp) _).trans ?_
    simp

/-- A scan header by header yields the chain of the scan, with the set of its protocols. -/
theorem scanIndexed_eq (registry : FrozenRegistry) (config : ScanConfig) (root : ProtocolId)
    (data : Bytes) :
    registry.scanIndexed config root data = ofChain (registry.scan config root data) := by
  by_cases hroot : registry.contains root = true ∧ root ≠ .payload
  · have hknown : ¬ ((!registry.contains root) = true ∨ root = .payload) := by simp [hroot]
    by_cases hdata : data = []
    · rw [scanIndexed, scan, if_neg hknown, if_pos hdata, if_neg hknown, if_pos hdata, hdata]
      rfl
    · have hfollows := follows_walk registry data config.headerLimit config.headerLimit [] root 0
        (Nat.zero_add _) hroot.1
      rw [scanIndexed, if_neg hknown, if_neg hdata,
        scan_of_registered registry config root data hroot.1 hroot.2 hdata]
      exact hfollows.extend_eq (by simp) hroot.2 rfl []
  · have hunknown : (!registry.contains root) = true ∨ root = .payload := by
      simpa [Decidable.imp_iff_not_or] using hroot
    rw [scanIndexed, scan, if_pos hunknown, if_pos hunknown]
    rfl

/-- Whatever is asked of the chain of a scan, its records decide the answer, and none of them is
hidden or shown twice. -/
theorem scan_answersFor (registry : FrozenRegistry) (config : ScanConfig) (root : ProtocolId)
    (data : Bytes) : (registry.scanIndexed config root data).AnswersFor data := by
  rw [scanIndexed_eq]
  have hheader := header?_scan registry config root data
  constructor
  case present_iff =>
    intro protocol
    rw [IndexedChain.hasHeader_ofChain]
    exact HeaderChain.hasHeader_iff_count
  case outermost_iff =>
    intro protocol
    rw [IndexedChain.header?_ofChain, hheader, isSome_getElem?, ← HeaderChain.instanceCount_eq]
    exact Iff.rfl
  case count => exact HeaderChain.instanceCount_eq _
  case header =>
    intro protocol ordinal
    rw [IndexedChain.header?_ofChain]
    exact hheader protocol ordinal
  case ordinal =>
    intro before record after hsplit
    have hrecords : (registry.scan config root data).records = before ++ record :: after := hsplit
    have hcounted := counted_scan registry config root data
    rw [hrecords, counted_append] at hcounted
    have hordinal := hcounted.2.1
    rw [List.nil_append] at hordinal
    have hrecord : record ∈ (registry.scan config root data).records := by
      rw [hrecords]
      exact List.mem_append_right _ List.mem_cons_self
    exact ⟨hordinal, ordinal_lt_of_scan hrecord⟩
  case distinct => exact ProtocolBits.size_ofList _
  case view =>
    intro protocol ordinal
    rw [IndexedChain.view?_ofChain, IndexedChain.header?_ofChain]
    exact view?_eq_header? registry config root data protocol ordinal
  case parts =>
    intro record hrecord
    have hstop : record.stop ≤ data.length := stop_le_of_scan hrecord
    refine ⟨data.take record.offset, ?_, HeaderView.length_bytes hstop, ?_⟩
    · rw [List.length_take]
      exact Nat.min_eq_left (Nat.le_trans (Nat.le_add_right _ _) hstop)
    · rw [HeaderView.bytes, HeaderView.payload, HeaderRecord.stop, ← List.drop_drop,
        List.append_assoc, List.take_append_drop, List.take_append_drop]

end FrozenRegistry

end Dissection
