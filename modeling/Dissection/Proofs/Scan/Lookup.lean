import Dissection.Proofs.Scan.BuiltIn
import Dissection.Proofs.Scan.Shape

/-!
# Looking up the headers of a scan

A chain is asked for a header by its protocol and by its ordinal among the headers of that protocol.
The ordinal of every record of a scan counts the records of its protocol before it, so the records
of a protocol are found in wire order, one under each ordinal, and the view that the chain gives of
one shows no other. The limit on headers keeps all ordinals below the greatest number of 16 bits.
-/

namespace Dissection

namespace ProtocolSet

theorem contains_foldl_insert (ids : List ProtocolId) (set : ProtocolSet) (id : ProtocolId) :
    (ids.foldl insert set).contains id = true ↔ id ∈ ids ∨ set.contains id = true := by
  induction ids generalizing set with
  | nil => simp
  | cons first rest ih =>
    rw [List.foldl_cons, ih, contains_insert, Bool.or_eq_true, decide_eq_true_iff, List.mem_cons,
      or_left_comm, or_assoc]

theorem contains_ofList_iff {ids : List ProtocolId} {id : ProtocolId} :
    (ofList ids).contains id = true ↔ id ∈ ids := by
  rw [ofList, contains_foldl_insert, contains_empty]
  simp

end ProtocolSet

namespace HeaderRecord

/-- The ordinal of every record counts the records of its protocol that stand before it, those of
`earlier` included. -/
def Counted (earlier : List HeaderRecord) : List HeaderRecord → Prop
  | [] => True
  | record :: rest =>
    record.ordinal = earlier.countP (·.protocol = record.protocol) ∧
      Counted (earlier ++ [record]) rest

theorem counted_append {earlier records more : List HeaderRecord} :
    Counted earlier (records ++ more) ↔
      Counted earlier records ∧ Counted (earlier ++ records) more := by
  induction records generalizing earlier with
  | nil => simp [Counted]
  | cons record rest ih =>
    simp only [List.cons_append, Counted, ih, List.append_assoc, List.nil_append]
    exact and_assoc.symm

/-- A search by protocol and ordinal finds the record at this place among those of the protocol. -/
theorem Counted.find?_eq {earlier records : List HeaderRecord} (h : Counted earlier records)
    (protocol : ProtocolId) (index : Nat) :
    records.find? (fun record => record.protocol = protocol ∧
        record.ordinal = earlier.countP (·.protocol = protocol) + index) =
      (records.filter (·.protocol = protocol))[index]? := by
  induction records generalizing earlier index with
  | nil => rfl
  | cons record rest ih =>
    obtain ⟨hordinal, hrest⟩ := h
    have hlater := ih hrest
    by_cases hprotocol : record.protocol = protocol
    · -- Behind this record the count is one higher.
      simp only [List.countP_append, List.countP_singleton, hprotocol, decide_true, if_true,
        Nat.add_assoc] at hlater
      rw [hprotocol] at hordinal
      rw [List.filter_cons_of_pos (by simpa using hprotocol)]
      cases index with
      | zero => simp [hprotocol, hordinal]
      | succ index =>
        rw [List.find?_cons_of_neg (by simp [hordinal]), List.getElem?_cons_succ, ← hlater index,
          Nat.add_comm 1 index]
    · simp only [List.countP_append, List.countP_singleton, hprotocol, decide_false,
        Bool.false_eq_true, if_false, Nat.add_zero] at hlater
      rw [List.filter_cons_of_neg (by simpa using hprotocol),
        List.find?_cons_of_neg (by simp [hprotocol]), hlater]

end HeaderRecord

open HeaderRecord (Counted counted_append)

namespace HeaderChain

variable {chain : HeaderChain} {protocol : ProtocolId}

theorem hasHeader_iff_mem :
    chain.hasHeader protocol = true ↔ ∃ record ∈ chain.records, record.protocol = protocol := by
  rw [hasHeader, protocols, ProtocolSet.contains_ofList_iff, List.mem_map]

/-- Whether a protocol other than that of unclaimed bytes occurs is told by the headers. -/
theorem hasHeader_iff (hprotocol : protocol ≠ .payload) :
    chain.hasHeader protocol = true ↔ ∃ record ∈ chain.headers, record.protocol = protocol := by
  rw [hasHeader_iff_mem]
  refine exists_congr fun record => ?_
  rw [headers, List.mem_filter, and_assoc]
  refine and_congr_right fun _ => ?_
  constructor
  · rintro rfl
    exact ⟨by simpa [HeaderRecord.isPayload] using hprotocol, rfl⟩
  · exact And.right

theorem hasHeader_iff_count :
    chain.hasHeader protocol = true ↔ 0 < chain.instanceCount protocol := by
  simp [hasHeader_iff_mem, instanceCount, List.countP_pos_iff]

theorem instanceCount_eq (chain : HeaderChain) (protocol : ProtocolId) :
    chain.instanceCount protocol = (chain.records.filter (·.protocol = protocol)).length :=
  List.countP_eq_length_filter

/-- Counted records are found in wire order. -/
theorem header?_eq (hcounted : Counted [] chain.records) (protocol : ProtocolId) (ordinal : Nat) :
    chain.header? protocol ordinal =
      (chain.records.filter (·.protocol = protocol))[ordinal]? := by
  have hfind := hcounted.find?_eq protocol ordinal
  simp only [List.countP_nil, Nat.zero_add] at hfind
  rw [header?, hfind]
  split
  · rfl
  · next habsent =>
    rw [hasHeader_iff_count, instanceCount_eq, Nat.pos_iff_ne_zero, Decidable.not_not,
      List.length_eq_zero_iff] at habsent
    rw [habsent, List.getElem?_nil]

end HeaderChain

namespace FrozenRegistry

variable {registry : FrozenRegistry} {config : ScanConfig} {root : ProtocolId} {data : Bytes}
  {record : HeaderRecord}

theorem Follows.counted {limit : Nat} {earlier : List HeaderRecord} {protocol : ProtocolId}
    {offset : Nat} {outcome : Walk}
    (h : registry.Follows data limit earlier protocol offset outcome) :
    Counted earlier outcome.headers := by
  induction h with
  | limited | unplaced => exact trivial
  | ended _ hplaced _ => exact ⟨hplaced.ordinal_eq, trivial⟩
  | unbound _ hplaced _ _ => exact ⟨hplaced.ordinal_eq, trivial⟩
  | bound _ hplaced _ _ _ ih => exact ⟨hplaced.ordinal_eq, ih⟩

theorem counted_headers (registry : FrozenRegistry) (config : ScanConfig) (root : ProtocolId)
    (data : Bytes) : Counted [] (registry.scan config root data).headers := by
  rcases headers_nil_or_follows registry config root data with hnone | hfollows
  · rw [hnone]
    exact trivial
  · exact hfollows.counted

theorem bufferLength_scan (registry : FrozenRegistry) (config : ScanConfig) (root : ProtocolId)
    (data : Bytes) : (registry.scan config root data).bufferLength = data.length := by
  rw [scan]
  split
  · rfl
  · split
    · next hdata => rw [hdata]; rfl
    · rfl

/-- The records of a scan are its headers and at most one record of unclaimed bytes. -/
theorem exists_unclaimed (registry : FrozenRegistry) (config : ScanConfig) (root : ProtocolId)
    (data : Bytes) :
    ∃ rest : List HeaderRecord,
      (registry.scan config root data).records =
        (registry.scan config root data).headers ++ rest ∧
      rest.length ≤ 1 ∧
      ∀ record ∈ rest, record.protocol = .payload ∧ record.ordinal = 0 ∧
        record.stop = data.length := by
  by_cases hroot : registry.contains root ∧ root ≠ .payload
  · by_cases hdata : data = []
    · rw [scan, if_neg (by simp [hroot]), if_pos hdata]
      exact ⟨[], rfl, Nat.zero_le 1, by simp⟩
    · rw [headers_scan registry config root data hroot.1 hroot.2 hdata,
        scan_of_registered registry config root data hroot.1 hroot.2 hdata]
      refine ⟨_, rfl, ?_⟩
      cases config.emitPayload with
      | false => simp
      | true =>
        simp only [if_true, unclaimed]
        split
        · next hopen =>
          simp only [List.length_singleton, Nat.le_refl, List.mem_singleton, forall_eq, true_and]
          exact Nat.add_sub_of_le (Nat.le_of_lt hopen.2)
        · simp
  · rw [scan, if_pos (by simpa [Decidable.imp_iff_not_or] using hroot)]
    exact ⟨[], rfl, Nat.zero_le 1, by simp⟩

theorem counted_scan (registry : FrozenRegistry) (config : ScanConfig) (root : ProtocolId)
    (data : Bytes) : Counted [] (registry.scan config root data).records := by
  obtain ⟨rest, hrecords, hlength, hrest⟩ := exists_unclaimed registry config root data
  rw [hrecords, counted_append]
  refine ⟨counted_headers registry config root data, ?_⟩
  cases rest with
  | nil => exact trivial
  | cons payload rest =>
    obtain rfl : rest = [] := List.length_eq_zero_iff.1 (by simpa using hlength)
    obtain ⟨hprotocol, hordinal, -⟩ := hrest payload List.mem_cons_self
    refine ⟨?_, trivial⟩
    -- No header stands for unclaimed bytes.
    rw [hordinal, hprotocol, eq_comm, List.countP_eq_zero]
    intro record hrecord
    have hclaimed := (List.mem_filter.1 (List.nil_append _ ▸ hrecord)).2
    simpa [HeaderRecord.isPayload] using hclaimed

theorem stop_le_of_scan (h : record ∈ (registry.scan config root data).records) :
    record.stop ≤ data.length := by
  obtain ⟨rest, hrecords, -, hrest⟩ := exists_unclaimed registry config root data
  rw [hrecords, List.mem_append] at h
  rcases h with hheader | hunclaimed
  · obtain ⟨before, hplaced⟩ := exists_places_of_scan hheader
    exact hplaced.inside.2
  · exact Nat.le_of_eq (hrest record hunclaimed).2.2

/-- The limit on headers leaves every ordinal below the greatest number of 16 bits. -/
theorem ordinal_lt_of_scan (h : record ∈ (registry.scan config root data).records) :
    record.ordinal < 65535 := by
  obtain ⟨rest, hrecords, -, hrest⟩ := exists_unclaimed registry config root data
  rw [hrecords, List.mem_append] at h
  rcases h with hheader | hunclaimed
  · have hcounted := counted_headers registry config root data
    rcases headers_nil_or_follows registry config root data with hnone | hfollows
    · rw [hnone] at hheader
      cases hheader
    · have hlimit : (registry.scan config root data).headers.length ≤ config.headerLimit := by
        simpa [HeaderChain.walk] using hfollows.limited_length (Nat.zero_le _)
      obtain ⟨before, after, hsplit⟩ := List.append_of_mem hheader
      rw [hsplit, counted_append] at hcounted
      rw [hsplit, List.length_append, List.length_cons] at hlimit
      have hcount : before.countP (·.protocol = record.protocol) ≤ before.length :=
        List.countP_le_length
      have hordinal := hcounted.2.1
      unfold ScanConfig.headerLimit at hlimit
      rw [List.nil_append] at hordinal
      omega
  · rw [(hrest record hunclaimed).2.1]
    decide

theorem header?_scan (registry : FrozenRegistry) (config : ScanConfig) (root : ProtocolId)
    (data : Bytes) (protocol : ProtocolId) (ordinal : Nat) :
    (registry.scan config root data).header? protocol ordinal =
      ((registry.scan config root data).records.filter (·.protocol = protocol))[ordinal]? :=
  HeaderChain.header?_eq (counted_scan registry config root data) protocol ordinal

theorem view?_eq_header? (registry : FrozenRegistry) (config : ScanConfig) (root : ProtocolId)
    (data : Bytes) (protocol : ProtocolId) (ordinal : Nat) :
    (registry.scan config root data).view? data protocol ordinal =
      ((registry.scan config root data).header? protocol ordinal).map (⟨data, ·⟩) := by
  rw [HeaderChain.view?, if_pos (bufferLength_scan registry config root data).symm, header?_scan]
  cases hfound : ((registry.scan config root data).records.filter
      (·.protocol = protocol))[ordinal]? with
  | none => rfl
  | some record =>
    have hrecord := (List.mem_filter.1 (List.mem_of_getElem? hfound)).1
    exact HeaderRecord.view?_eq_some_iff.2 ⟨stop_le_of_scan hrecord, rfl⟩

/-- The view of a header of a scan shows the record of this header. -/
theorem view?_scan (h : record ∈ (registry.scan config root data).headers) :
    (registry.scan config root data).view? data record.protocol record.ordinal =
      some ⟨data, record⟩ := by
  obtain ⟨before, after, hsplit⟩ := List.append_of_mem (List.mem_filter.1 h).1
  have hcounted := counted_scan registry config root data
  rw [hsplit, counted_append] at hcounted
  have hordinal := hcounted.2.1
  rw [List.nil_append] at hordinal
  -- As many records of the protocol stand before this one as its ordinal says.
  have hplace : (registry.scan config root data).header? record.protocol record.ordinal =
      some record := by
    rw [List.countP_eq_length_filter] at hordinal
    rw [header?_scan, hsplit, List.filter_append,
      List.getElem?_append_right (Nat.le_of_eq hordinal.symm), hordinal]
    simp
  rw [view?_eq_header?, hplace, Option.map_some]

end FrozenRegistry

end Dissection
