import Dissection.Proofs.Scan.Rules

/-!
# The shape of a header chain

Whatever a registry holds and whatever the bytes are, the records of a scan lie one behind the
other inside the buffer, and the reason why the scan stopped agrees with them: it says whether
bytes are left behind the last header, and whether a record stands for these. Each part is first
shown of an outcome that the rules allow, by induction on the rules.
-/

namespace Dissection

namespace HeaderRecord

/-- The first record starts at `start`, and every other one where the record before it ends. -/
def Contiguous (start : Nat) : List HeaderRecord → Prop
  | [] => True
  | record :: rest => record.offset = start ∧ Contiguous record.stop rest

/-- Where the bytes behind the records begin, when the first record starts at `start`. -/
def stopAfter (start : Nat) (records : List HeaderRecord) : Nat :=
  (records.getLast?.map (·.stop)).getD start

@[simp] theorem stopAfter_nil (start : Nat) : stopAfter start [] = start := rfl

@[simp] theorem stopAfter_cons (start : Nat) (record : HeaderRecord) (rest : List HeaderRecord) :
    stopAfter start (record :: rest) = stopAfter record.stop rest := by
  rw [stopAfter, stopAfter, List.getLast?_cons]
  cases rest.getLast? <;> rfl

theorem exists_last (start : Nat) (records : List HeaderRecord) (h : 0 < records.length) :
    ∃ last, records.getLast? = some last ∧ last.stop = stopAfter start records := by
  obtain ⟨record, rest, rfl⟩ := List.exists_cons_of_length_pos h
  refine ⟨rest.getLast?.getD record, List.getLast?_cons, ?_⟩
  rw [stopAfter, List.getLast?_cons]
  rfl

theorem contiguous_append (start : Nat) (records more : List HeaderRecord) :
    Contiguous start (records ++ more) ↔
      Contiguous start records ∧ Contiguous (stopAfter start records) more := by
  induction records generalizing start with
  | nil => simp [Contiguous]
  | cons record rest ih =>
    simp only [List.cons_append, Contiguous, ih, stopAfter_cons]
    exact and_assoc.symm

section Contiguous

variable {start : Nat} {records : List HeaderRecord}

theorem Contiguous.le_stopAfter (h : Contiguous start records) : start ≤ stopAfter start records := by
  induction records generalizing start with
  | nil => exact Nat.le_refl _
  | cons record rest ih =>
    obtain ⟨rfl, hrest⟩ := h
    rw [stopAfter_cons]
    exact Nat.le_trans (Nat.le_add_right _ _) (ih hrest)

theorem Contiguous.between (h : Contiguous start records) :
    ∀ record ∈ records, start ≤ record.offset ∧ record.stop ≤ stopAfter start records := by
  induction records generalizing start with
  | nil => simp
  | cons record rest ih =>
    obtain ⟨rfl, hrest⟩ := h
    rw [stopAfter_cons, List.forall_mem_cons]
    refine ⟨⟨Nat.le_refl _, hrest.le_stopAfter⟩, fun later hlater => ?_⟩
    obtain ⟨hoffset, hstop⟩ := ih hrest later hlater
    exact ⟨Nat.le_trans (Nat.le_add_right _ _) hoffset, hstop⟩

theorem Contiguous.pairwise (h : Contiguous start records) :
    records.Pairwise (fun a b => a.stop ≤ b.offset) := by
  induction records generalizing start with
  | nil => exact .nil
  | cons record rest ih =>
    exact List.pairwise_cons.2 ⟨fun later hlater => (h.2.between later hlater).1, ih h.2⟩

/-- A byte behind the start lies in one of the records or behind them all. -/
theorem Contiguous.covers (h : Contiguous start records) {index : Nat} (hindex : start ≤ index) :
    (∃ record ∈ records, record.offset ≤ index ∧ index < record.stop) ∨
      stopAfter start records ≤ index := by
  induction records generalizing start with
  | nil => exact .inr hindex
  | cons record rest ih =>
    obtain ⟨rfl, hrest⟩ := h
    by_cases hinner : index < record.stop
    · exact .inl ⟨record, List.mem_cons_self, hindex, hinner⟩
    · rw [stopAfter_cons]
      refine (ih hrest (Nat.le_of_not_lt hinner)).imp_left ?_
      rintro ⟨later, hlater, hcovers⟩
      exact ⟨later, List.mem_cons_of_mem _ hlater, hcovers⟩

end Contiguous

end HeaderRecord

open HeaderRecord (Contiguous stopAfter stopAfter_nil stopAfter_cons contiguous_append)

namespace Termination

/-- What it means for the headers, `count` of them up to `stop`, that a scan stopped for this
reason. -/
def Fits (registry : FrozenRegistry) (data : Bytes) (limit count stop : Nat) : Termination → Prop
  | .endOfBuffer => 0 < count ∧ stop = data.length
  | .noBinding => 0 < count ∧ stop < data.length
  | .depthLimit => count = limit ∧ stop < data.length
  | .length error => count < limit ∧ stop < data.length ∧
      ∃ protocol descriptor, registry.lookup protocol = some descriptor ∧
        descriptor.length.resolve protocol data stop = .error error
  | .unknownRoot _ => False

variable {registry : FrozenRegistry} {data : Bytes} {limit count stop : Nat}
  {termination : Termination}

theorem Fits.bytes_left (h : termination.Fits registry data limit count stop)
    (hopen : termination = .noBinding ∨ termination = .depthLimit) : stop < data.length := by
  rcases hopen with rfl | rfl <;> exact h.2

/-- Only the end of the buffer as a reason means that no byte is left behind the headers. -/
theorem Fits.endOfBuffer_iff (h : termination.Fits registry data limit count stop) :
    termination = .endOfBuffer ↔ 0 < count ∧ stop = data.length := by
  constructor
  · rintro rfl
    exact h
  · rintro ⟨_, rfl⟩
    cases termination with
    | endOfBuffer => rfl
    | noBinding | depthLimit => exact absurd h.2 (Nat.lt_irrefl _)
    | length error => exact absurd h.2.1 (Nat.lt_irrefl _)
    | unknownRoot id => exact h.elim

end Termination

namespace FrozenRegistry

variable {registry : FrozenRegistry} {data : Bytes} {limit : Nat} {earlier : List HeaderRecord}
  {protocol : ProtocolId} {offset : Nat} {current : HeaderRecord} {outcome : Walk}

theorem Places.offset_eq (h : registry.Places data earlier protocol offset current) :
    current.offset = offset := by
  obtain ⟨_, _, _, _, rfl⟩ := h
  rfl

theorem Places.inside (h : registry.Places data earlier protocol offset current) :
    1 ≤ current.length ∧ current.stop ≤ data.length := by
  obtain ⟨descriptor, length, _, hlength, rfl⟩ := h
  exact LengthRule.resolve_bounds hlength

theorem Places.registered (h : registry.Places data earlier protocol offset current) :
    registry.contains current.protocol := by
  obtain ⟨descriptor, length, hlookup, _, rfl⟩ := h
  exact Option.isSome_iff_exists.2 ⟨descriptor, hlookup⟩

theorem Follows.contiguous (h : registry.Follows data limit earlier protocol offset outcome) :
    Contiguous offset outcome.headers := by
  induction h with
  | limited | unplaced => exact trivial
  | ended _ hplaced _ => exact ⟨hplaced.offset_eq, trivial⟩
  | unbound _ hplaced _ _ => exact ⟨hplaced.offset_eq, trivial⟩
  | bound _ hplaced _ _ _ ih => exact ⟨hplaced.offset_eq, ih⟩

theorem Follows.inside (h : registry.Follows data limit earlier protocol offset outcome) :
    ∀ record ∈ outcome.headers, 1 ≤ record.length ∧ record.stop ≤ data.length := by
  induction h with
  | limited | unplaced => simp
  | ended _ hplaced _ => simpa using hplaced.inside
  | unbound _ hplaced _ _ => simpa using hplaced.inside
  | bound _ hplaced _ _ _ ih =>
    rw [List.forall_mem_cons]
    exact ⟨hplaced.inside, ih⟩

theorem Follows.registered (h : registry.Follows data limit earlier protocol offset outcome) :
    ∀ record ∈ outcome.headers, registry.contains record.protocol := by
  induction h with
  | limited | unplaced => simp
  | ended _ hplaced _ => simpa using hplaced.registered
  | unbound _ hplaced _ _ => simpa using hplaced.registered
  | bound _ hplaced _ _ _ ih =>
    rw [List.forall_mem_cons]
    exact ⟨hplaced.registered, ih⟩

theorem Follows.limited_length (h : registry.Follows data limit earlier protocol offset outcome)
    (hearlier : earlier.length ≤ limit) : earlier.length + outcome.headers.length ≤ limit := by
  induction h with
  | limited | unplaced => simpa using hearlier
  | ended hroom _ _ => exact hroom
  | unbound hroom _ _ _ => exact hroom
  | bound hroom _ _ _ _ ih =>
    rw [List.length_append, List.length_singleton] at ih
    have hlater := ih hroom
    rw [List.length_cons]
    omega

/-- The reason for stopping fits the headers that the rules commit. -/
theorem Follows.fits (h : registry.Follows data limit earlier protocol offset outcome)
    (hearlier : earlier.length ≤ limit) (hoffset : offset < data.length) :
    outcome.termination.Fits registry data limit (earlier.length + outcome.headers.length)
      (stopAfter offset outcome.headers) := by
  induction h with
  | limited hfull => exact ⟨Nat.le_antisymm hearlier hfull, hoffset⟩
  | unplaced hroom hlookup hlength => exact ⟨hroom, hoffset, _, _, hlookup, hlength⟩
  | ended _ hplaced hend => exact ⟨Nat.succ_pos _, Nat.le_antisymm hplaced.inside.2 hend⟩
  | unbound _ _ hrest _ => exact ⟨Nat.succ_pos _, hrest⟩
  | @bound earlier _ _ current _ later hroom _ hrest _ _ ih =>
    rw [List.length_append, List.length_singleton] at ih
    have hcount : earlier.length + (current :: later.headers).length =
        earlier.length + 1 + later.headers.length := by
      rw [List.length_cons]
      omega
    simp only [stopAfter_cons, hcount]
    exact ih hroom hrest

/-- Headers in a row inside the buffer, each of a registered protocol. -/
structure HeadersLaidOut (registry : FrozenRegistry) (data : Bytes) (headers : List HeaderRecord) :
    Prop where
  contiguous : Contiguous 0 headers
  inside : ∀ record ∈ headers, 1 ≤ record.length ∧ record.stop ≤ data.length
  claimed : ∀ record ∈ headers, record.isPayload = false
  registered : ∀ record ∈ headers, registry.contains record.protocol = true

/-- How the records of a chain lie in the buffer. -/
structure LaidOut (registry : FrozenRegistry) (config : ScanConfig) (data : Bytes)
    (chain : HeaderChain) : Prop where
  contiguous : Contiguous 0 chain.records
  inside : ∀ record ∈ chain.records, 1 ≤ record.length ∧ record.stop ≤ data.length
  payload_is_last : ∀ record ∈ chain.records.dropLast, record.isPayload = false
  payload_only_if : ∀ record ∈ chain.records, record.isPayload = true →
    config.emitPayload = true ∧
      (chain.termination = .noBinding ∨ chain.termination = .depthLimit) ∧
      record.stop = data.length
  payload_if : config.emitPayload = true →
    chain.termination = .noBinding ∨ chain.termination = .depthLimit →
    ∃ record, chain.payload? = some record
  registered : ∀ record ∈ chain.records, record.isPayload = false →
    registry.contains record.protocol = true ∧ record.protocol ≠ .payload

/-- The chain of a scan: its records, and what the termination says about them. The bytes behind
the last header start at `stopAfter 0 chain.headers`. -/
structure WellShaped (registry : FrozenRegistry) (config : ScanConfig) (root : ProtocolId)
    (data : Bytes) (chain : HeaderChain) : Prop extends LaidOut registry config data chain where
  limited : chain.headerCount ≤ min config.maxHeaders 65535
  unknown_root_iff : chain.termination = .unknownRoot root ↔
    registry.contains root = false ∨ root = .payload
  unknown_root : ∀ id, chain.termination = .unknownRoot id → id = root ∧ chain.records = []
  end_of_buffer_iff : registry.contains root = true → root ≠ .payload →
    (chain.termination = .endOfBuffer ↔
      data = [] ∨ ∃ last, chain.lastHeader? = some last ∧ last.stop = data.length)
  no_binding : chain.termination = .noBinding →
    ∃ last, chain.lastHeader? = some last ∧ last.stop < data.length
  depth_limit : chain.termination = .depthLimit →
    chain.headerCount = min config.maxHeaders 65535 ∧ stopAfter 0 chain.headers < data.length
  length : ∀ error, chain.termination = .length error →
    chain.headerCount < min config.maxHeaders 65535 ∧
      ∃ protocol descriptor, registry.lookup protocol = some descriptor ∧
        descriptor.length.resolve protocol data (stopAfter 0 chain.headers) = .error error

section Chain

variable {config : ScanConfig} {root : ProtocolId} {chain : HeaderChain}

theorem laidOut_of_headers (hheaders : HeadersLaidOut registry data chain.records)
    (hshown : config.emitPayload = true →
      ¬ (chain.termination = .noBinding ∨ chain.termination = .depthLimit)) :
    LaidOut registry config data chain where
  contiguous := hheaders.contiguous
  inside := hheaders.inside
  payload_is_last record hrecord := hheaders.claimed record (List.dropLast_subset _ hrecord)
  payload_only_if record hrecord hpayload := by
    rw [hheaders.claimed record hrecord] at hpayload
    cases hpayload
  payload_if hemit hopen := absurd hopen (hshown hemit)
  registered record hrecord hpayload :=
    ⟨hheaders.registered record hrecord, by simpa [HeaderRecord.isPayload] using hpayload⟩

/-- A record of all bytes behind the headers continues them up to the end of the buffer. -/
theorem laidOut_of_payload {headers : List HeaderRecord} {payload : HeaderRecord}
    (hheaders : HeadersLaidOut registry data headers) (hrecords : chain.records = headers ++ [payload])
    (hpayload : payload.isPayload = true) (hoffset : payload.offset = stopAfter 0 headers)
    (hlength : 1 ≤ payload.length) (hstop : payload.stop = data.length)
    (hemit : config.emitPayload = true)
    (hopen : chain.termination = .noBinding ∨ chain.termination = .depthLimit) :
    LaidOut registry config data chain := by
  have hmem (record : HeaderRecord) (h : record ∈ chain.records) :
      record ∈ headers ∨ record = payload := by
    simpa [hrecords] using h
  constructor
  case contiguous =>
    rw [hrecords, contiguous_append]
    exact ⟨hheaders.contiguous, hoffset, trivial⟩
  case inside =>
    intro record hrecord
    rcases hmem record hrecord with h | rfl
    · exact hheaders.inside record h
    · exact ⟨hlength, Nat.le_of_eq hstop⟩
  case payload_is_last =>
    intro record hrecord
    rw [hrecords, List.dropLast_concat] at hrecord
    exact hheaders.claimed record hrecord
  case payload_only_if =>
    intro record hrecord hispayload
    rcases hmem record hrecord with h | rfl
    · rw [hheaders.claimed record h] at hispayload
      cases hispayload
    · exact ⟨hemit, hopen, hstop⟩
  case payload_if =>
    intro _ _
    refine ⟨payload, ?_⟩
    rw [HeaderChain.payload?, hrecords, List.getLast?_concat, Option.filter_some, if_pos hpayload]
  case registered =>
    intro record hrecord hispayload
    rcases hmem record hrecord with h | rfl
    · exact ⟨hheaders.registered record h, by simpa [HeaderRecord.isPayload] using hispayload⟩
    · rw [hpayload] at hispayload
      cases hispayload

theorem laidOut_scan (registry : FrozenRegistry) (config : ScanConfig) (root : ProtocolId)
    (data : Bytes) (hroot : registry.contains root = true) (hpayload : root ≠ .payload)
    (hdata : data ≠ []) (hstop : (registry.scan config root data).termination = .noBinding ∨
      (registry.scan config root data).termination = .depthLimit →
        stopAfter 0 (registry.scan config root data).headers < data.length)
    (hheaders : HeadersLaidOut registry data (registry.scan config root data).headers) :
    LaidOut registry config data (registry.scan config root data) := by
  rw [headers_scan registry config root data hroot hpayload hdata] at hheaders hstop
  rw [scan_of_registered registry config root data hroot hpayload hdata] at hstop ⊢
  generalize registry.walk data config.headerLimit [] root 0 = walk at hheaders hstop ⊢
  by_cases hshown : config.emitPayload = true ∧
      (walk.termination = .noBinding ∨ walk.termination = .depthLimit)
  · have hlt := hstop hshown.2
    let rest : HeaderRecord :=
      ⟨.payload, stopAfter 0 walk.headers, data.length - stopAfter 0 walk.headers, 0⟩
    have hrest : unclaimed walk data.length = [rest] := if_pos ⟨hshown.2, hlt⟩
    have hlength : 1 ≤ rest.length := Nat.sub_pos_of_lt hlt
    have hend : rest.stop = data.length := Nat.add_sub_of_le (Nat.le_of_lt hlt)
    simp only [hshown.1, if_true, hrest]
    exact laidOut_of_payload hheaders rfl rfl rfl hlength hend hshown.1 hshown.2
  · have hnone : (if config.emitPayload = true then unclaimed walk data.length else []) = [] := by
      by_cases hemit : config.emitPayload = true
      · rw [if_pos hemit]
        exact if_neg (fun h => hshown ⟨hemit, h.1⟩)
      · rw [if_neg hemit]
    simp only [hnone, List.append_nil]
    exact laidOut_of_headers hheaders (fun hemit hopen => hshown ⟨hemit, hopen⟩)

theorem lastHeader_of_count (h : 0 < chain.headerCount) :
    ∃ last, chain.lastHeader? = some last ∧ last.stop = stopAfter 0 chain.headers :=
  HeaderRecord.exists_last 0 chain.headers h

theorem stopAfter_of_lastHeader {last : HeaderRecord} (h : chain.lastHeader? = some last) :
    stopAfter 0 chain.headers = last.stop := by
  rw [HeaderChain.lastHeader?] at h
  rw [stopAfter, h]
  rfl

theorem wellShaped_of_fits (hroot : registry.contains root = true) (hpayload : root ≠ .payload)
    (hdata : data ≠ []) (hlaid : LaidOut registry config data chain)
    (hlimited : chain.headerCount ≤ config.headerLimit)
    (hfits : chain.termination.Fits registry data config.headerLimit chain.headerCount
      (stopAfter 0 chain.headers)) :
    WellShaped registry config root data chain := by
  have hunknown (id : ProtocolId) : chain.termination ≠ .unknownRoot id := by
    intro ht
    rw [ht] at hfits
    exact hfits
  constructor
  case toLaidOut => exact hlaid
  case limited => exact hlimited
  case unknown_root_iff => simp [hunknown, hroot, hpayload]
  case unknown_root => exact fun id ht => absurd ht (hunknown id)
  case end_of_buffer_iff =>
    intro _ _
    rw [hfits.endOfBuffer_iff, or_iff_right hdata]
    constructor
    · rintro ⟨hcount, hstop⟩
      obtain ⟨last, hlast, hlaststop⟩ := lastHeader_of_count hcount
      exact ⟨last, hlast, hlaststop.trans hstop⟩
    · rintro ⟨last, hlast, hstop⟩
      have hmem := List.mem_of_getLast? hlast
      exact ⟨List.length_pos_of_mem hmem, (stopAfter_of_lastHeader hlast).trans hstop⟩
  case no_binding =>
    intro ht
    rw [ht] at hfits
    obtain ⟨last, hlast, hstop⟩ := lastHeader_of_count hfits.1
    exact ⟨last, hlast, hstop ▸ hfits.2⟩
  case depth_limit =>
    intro ht
    rw [ht] at hfits
    exact hfits
  case length =>
    intro error ht
    rw [ht] at hfits
    exact ⟨hfits.1, hfits.2.2⟩

theorem wellShaped_of_unknown_root (config : ScanConfig)
    (hroot : registry.contains root = false ∨ root = .payload) :
    WellShaped registry config root data ⟨data.length, [], .unknownRoot root, []⟩ where
  toLaidOut := laidOut_of_headers ⟨trivial, by simp, by simp, by simp⟩ (by simp)
  limited := Nat.zero_le _
  unknown_root_iff := by simp [hroot]
  unknown_root := by simp
  end_of_buffer_iff hknown hpayload := by simp [hknown, hpayload] at hroot
  no_binding := by simp
  depth_limit := by simp
  length := by simp

theorem wellShaped_of_nil (config : ScanConfig) (hroot : registry.contains root = true)
    (hpayload : root ≠ .payload) : WellShaped registry config root [] ⟨0, [], .endOfBuffer, []⟩ where
  toLaidOut := laidOut_of_headers ⟨trivial, by simp, by simp, by simp⟩ (by simp)
  limited := Nat.zero_le _
  unknown_root_iff := by simp [hroot, hpayload]
  unknown_root := by simp
  end_of_buffer_iff := by simp
  no_binding := by simp
  depth_limit := by simp
  length := by simp

end Chain

/-- Every scan yields a well-shaped chain, for every registry, root, configuration and buffer. -/
theorem scan_wellShaped (registry : FrozenRegistry) (config : ScanConfig) (root : ProtocolId)
    (data : Bytes) :
    WellShaped registry config root data (registry.scan config root data) := by
  by_cases hroot : registry.contains root = false ∨ root = .payload
  · have hscan : registry.scan config root data = ⟨data.length, [], .unknownRoot root, []⟩ := by
      rw [scan, if_pos (by simpa using hroot)]
    rw [hscan]
    exact wellShaped_of_unknown_root config hroot
  · obtain ⟨hknown, hpayload⟩ := not_or.1 hroot
    rw [Bool.not_eq_false] at hknown
    by_cases hdata : data = []
    · have hscan : registry.scan config root data = ⟨0, [], .endOfBuffer, []⟩ := by
        rw [scan, if_neg (by simp [hknown, hpayload]), if_pos hdata]
      rw [hscan, hdata]
      exact wellShaped_of_nil config hknown hpayload
    · have hfollows := registry.follows_scan config root data hknown hpayload hdata
      have hlimited := hfollows.limited_length (Nat.zero_le _)
      have hfits := hfollows.fits (Nat.zero_le _) (List.length_pos_iff.2 hdata)
      rw [List.length_nil, Nat.zero_add] at hlimited hfits
      refine wellShaped_of_fits hknown hpayload hdata ?_ hlimited hfits
      exact laidOut_scan registry config root data hknown hpayload hdata hfits.bytes_left
        ⟨hfollows.contiguous, hfollows.inside, hfollows.claimed hpayload, hfollows.registered⟩

end FrozenRegistry

end Dissection
