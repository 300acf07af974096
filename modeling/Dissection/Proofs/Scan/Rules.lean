import Dissection.Scan

/-!
# The rules of a scan

`Follows` states the rules one by one, as a relation between the headers committed so far, the
protocol to place next, and what the scan does from there on. The edge that names the next header
is described by its rank among the edges that leave the current one, and not by a search. Every
scan of a buffer that is not empty follows these rules, and they leave it no choice.
-/

namespace Dissection

namespace Binding

instance (a b : Binding) : Decidable (a.Before b) := inferInstanceAs (Decidable (_ ∨ _))

theorem Before.irrefl (a : Binding) : ¬ a.Before a := by
  unfold Before
  omega

theorem Before.asymm {a b : Binding} (h : a.Before b) : ¬ b.Before a := by
  unfold Before at *
  omega

end Binding

namespace BindingContext

def fault? (context : BindingContext) (edge : Binding) : Option Diagnostic :=
  match edge.predicate context with
  | .error error => some ⟨edge.source, edge.target, context.current.offset, error⟩
  | .ok _ => none

def faults (context : BindingContext) (edges : List Binding) : List Diagnostic :=
  edges.filterMap context.fault?

theorem select_cons_of_not_holds (context : BindingContext) (edge : Binding) (rest : List Binding)
    (h : edge.predicate context ≠ .ok true) :
    context.select (edge :: rest) =
      ⟨(context.select rest).target, context.faults [edge] ++ (context.select rest).diagnostics⟩ := by
  rw [select]
  cases hanswer : edge.predicate context with
  | error error => simp [faults, fault?, hanswer]
  | ok holds =>
    cases holds with
    | true => exact absurd hanswer h
    | false => simp [faults, fault?, hanswer]

theorem select_of_none (context : BindingContext) (edges : List Binding)
    (h : ∀ edge ∈ edges, edge.predicate context ≠ .ok true) :
    context.select edges = ⟨none, context.faults edges⟩ := by
  induction edges with
  | nil => rfl
  | cons edge rest ih =>
    rw [select_cons_of_not_holds context edge rest (h edge List.mem_cons_self),
      ih (fun x hx => h x (List.mem_cons_of_mem _ hx))]
    simp only [faults]
    rw [← List.filterMap_append, List.singleton_append]

/-- The edge holds and none that is tried before it does. -/
structure Wins (context : BindingContext) (edges : List Binding) (winner : Binding) : Prop where
  tried : winner ∈ edges
  holds : winner.predicate context = .ok true
  first : ∀ edge ∈ edges, edge.Before winner → edge.predicate context ≠ .ok true

/-- Of ranked edges, exactly those before the winner leave diagnostics. -/
theorem select_of_wins (context : BindingContext) (edges : List Binding) (winner : Binding)
    (hranked : edges.Pairwise Binding.Before) (h : context.Wins edges winner) :
    context.select edges =
      ⟨some winner.target, context.faults (edges.filter (·.Before winner))⟩ := by
  induction edges with
  | nil => cases h.tried
  | cons edge rest ih =>
    obtain ⟨hedge, hrest⟩ := List.pairwise_cons.1 hranked
    rcases List.mem_cons.1 h.tried with rfl | hmem
    · have hnone : (winner :: rest).filter (·.Before winner) = [] := by
        rw [List.filter_eq_nil_iff]
        intro x hx
        rw [decide_eq_true_iff]
        rcases List.mem_cons.1 hx with rfl | hx
        · exact Binding.Before.irrefl x
        · exact (hedge x hx).asymm
      rw [hnone, select, h.holds]
      rfl
    · have hbefore := hedge winner hmem
      have hwins : context.Wins rest winner :=
        ⟨hmem, h.holds, fun x hx => h.first x (List.mem_cons_of_mem _ hx)⟩
      rw [select_cons_of_not_holds context edge rest (h.first edge List.mem_cons_self hbefore),
        ih hrest hwins, List.filter_cons_of_pos (by simpa using hbefore)]
      simp only [faults]
      rw [← List.filterMap_append, List.singleton_append]

theorem none_or_wins (context : BindingContext) (edges : List Binding)
    (hranked : edges.Pairwise Binding.Before) :
    (∀ edge ∈ edges, edge.predicate context ≠ .ok true) ∨ ∃ winner, context.Wins edges winner := by
  induction edges with
  | nil => simp
  | cons edge rest ih =>
    obtain ⟨hedge, hrest⟩ := List.pairwise_cons.1 hranked
    by_cases h : edge.predicate context = .ok true
    · right
      refine ⟨edge, List.mem_cons_self, h, fun x hx hbefore => ?_⟩
      rcases List.mem_cons.1 hx with rfl | hx
      · exact absurd hbefore (Binding.Before.irrefl x)
      · exact absurd hbefore (hedge x hx).asymm
    · rcases ih hrest with hnone | ⟨winner, hwins⟩
      · left
        simpa [h] using hnone
      · right
        refine ⟨winner, List.mem_cons_of_mem _ hwins.tried, hwins.holds, fun x hx hbefore => ?_⟩
        rcases List.mem_cons.1 hx with rfl | hx
        · exact h
        · exact hwins.first x hx hbefore

end BindingContext

/-- The walk that a chain reports: all of it but the record of the unclaimed bytes. -/
def HeaderChain.walk (chain : HeaderChain) : Walk :=
  ⟨chain.headers, chain.termination, chain.diagnostics⟩

namespace FrozenRegistry

/-- The record of a header of `protocol` at `offset`, behind the headers `earlier`, when the length
rule of the protocol yields a length there. -/
def Places (registry : FrozenRegistry) (data : Bytes) (earlier : List HeaderRecord)
    (protocol : ProtocolId) (offset : Nat) (record : HeaderRecord) : Prop :=
  ∃ descriptor length, registry.lookup protocol = some descriptor ∧
    descriptor.length.resolve protocol data offset = .ok length ∧
    record = ⟨protocol, offset, length, earlier.countP (·.protocol = protocol)⟩

/-- What a scan may do when `earlier` are committed and `protocol` is next at `offset`. -/
inductive Follows (registry : FrozenRegistry) (data : Bytes) (limit : Nat) :
    List HeaderRecord → ProtocolId → Nat → Walk → Prop
  /-- No header is committed beyond the limit. -/
  | limited {earlier : List HeaderRecord} {protocol : ProtocolId} {offset : Nat}
      (hfull : limit ≤ earlier.length) :
      Follows registry data limit earlier protocol offset ⟨[], .depthLimit, []⟩
  /-- A header without a length stops the scan. -/
  | unplaced {earlier : List HeaderRecord} {protocol : ProtocolId} {offset : Nat}
      {descriptor : ProtocolDescriptor} {error : LengthError} (hroom : earlier.length < limit)
      (hlookup : registry.lookup protocol = some descriptor)
      (hlength : descriptor.length.resolve protocol data offset = .error error) :
      Follows registry data limit earlier protocol offset ⟨[], .length error, []⟩
  /-- A header that ends the buffer is the last one, and no edge is tried. -/
  | ended {earlier : List HeaderRecord} {protocol : ProtocolId} {offset : Nat}
      {current : HeaderRecord} (hroom : earlier.length < limit)
      (hplaced : registry.Places data earlier protocol offset current)
      (hend : data.length ≤ current.stop) :
      Follows registry data limit earlier protocol offset ⟨[current], .endOfBuffer, []⟩
  /-- A header is the last one when none of its edges holds. -/
  | unbound {earlier : List HeaderRecord} {protocol : ProtocolId} {offset : Nat}
      {current : HeaderRecord} (hroom : earlier.length < limit)
      (hplaced : registry.Places data earlier protocol offset current)
      (hrest : current.stop < data.length)
      (hnone : ∀ edge ∈ registry.bindingsFrom protocol,
        edge.predicate ⟨data, earlier, current⟩ ≠ .ok true) :
      Follows registry data limit earlier protocol offset
        ⟨[current], .noBinding,
          BindingContext.faults ⟨data, earlier, current⟩ (registry.bindingsFrom protocol)⟩
  /-- The target of the winning edge comes next, where the header ends. -/
  | bound {earlier : List HeaderRecord} {protocol : ProtocolId} {offset : Nat}
      {current : HeaderRecord} {winner : Binding} {later : Walk} (hroom : earlier.length < limit)
      (hplaced : registry.Places data earlier protocol offset current)
      (hrest : current.stop < data.length)
      (hwins : BindingContext.Wins ⟨data, earlier, current⟩ (registry.bindingsFrom protocol) winner)
      (hlater : Follows registry data limit (earlier ++ [current]) winner.target current.stop
        later) :
      Follows registry data limit earlier protocol offset
        ⟨current :: later.headers, later.termination,
          BindingContext.faults ⟨data, earlier, current⟩
            ((registry.bindingsFrom protocol).filter (·.Before winner)) ++ later.diagnostics⟩

theorem bindingsFrom_ranked (registry : FrozenRegistry) (source : ProtocolId) :
    (registry.bindingsFrom source).Pairwise Binding.Before :=
  registry.edges_ranked.filter _

theorem target_of_mem_bindingsFrom {registry : FrozenRegistry} {source : ProtocolId}
    {edge : Binding} (h : edge ∈ registry.bindingsFrom source) :
    registry.contains edge.target ∧ edge.target ≠ .payload :=
  (registry.edges_admitted edge (mem_bindingsFrom.1 h).1).2

theorem headerLength_of_lookup {registry : FrozenRegistry} {protocol : ProtocolId}
    {descriptor : ProtocolDescriptor} (h : registry.lookup protocol = some descriptor)
    (data : Bytes) (offset : Nat) :
    registry.headerLength protocol data offset = descriptor.length.resolve protocol data offset := by
  rw [headerLength, h]

theorem Places.protocol_eq {registry : FrozenRegistry} {data : Bytes} {earlier : List HeaderRecord}
    {protocol : ProtocolId} {offset : Nat} {current : HeaderRecord}
    (h : registry.Places data earlier protocol offset current) : current.protocol = protocol := by
  obtain ⟨_, _, _, _, rfl⟩ := h
  rfl

section Walk

variable {registry : FrozenRegistry} {data : Bytes} {earlier : List HeaderRecord}
  {protocol : ProtocolId} {offset : Nat} {current : HeaderRecord} (budget : Nat)
  (hplaced : registry.Places data earlier protocol offset current)

include hplaced

theorem walk_of_end (hend : data.length ≤ current.stop) :
    registry.walk data (budget + 1) earlier protocol offset = ⟨[current], .endOfBuffer, []⟩ := by
  obtain ⟨descriptor, length, hlookup, hlength, rfl⟩ := hplaced
  rw [walk, headerLength_of_lookup hlookup, hlength]
  exact if_pos hend

theorem walk_of_none (hrest : current.stop < data.length)
    (hnone : ∀ edge ∈ registry.bindingsFrom protocol,
      edge.predicate ⟨data, earlier, current⟩ ≠ .ok true) :
    registry.walk data (budget + 1) earlier protocol offset =
      ⟨[current], .noBinding,
        BindingContext.faults ⟨data, earlier, current⟩ (registry.bindingsFrom protocol)⟩ := by
  have hselect := BindingContext.select_of_none _ _ hnone
  obtain ⟨descriptor, length, hlookup, hlength, rfl⟩ := hplaced
  rw [walk, headerLength_of_lookup hlookup, hlength]
  simp only [selectNext]
  rw [if_neg (Nat.not_le.2 hrest), hselect]

theorem walk_of_wins {winner : Binding} (hrest : current.stop < data.length)
    (hwins : BindingContext.Wins ⟨data, earlier, current⟩ (registry.bindingsFrom protocol) winner) :
    registry.walk data (budget + 1) earlier protocol offset =
      let later := registry.walk data budget (earlier ++ [current]) winner.target current.stop
      ⟨current :: later.headers, later.termination,
        BindingContext.faults ⟨data, earlier, current⟩
          ((registry.bindingsFrom protocol).filter (·.Before winner)) ++ later.diagnostics⟩ := by
  have hselect := BindingContext.select_of_wins _ _ _ (registry.bindingsFrom_ranked protocol) hwins
  obtain ⟨descriptor, length, hlookup, hlength, rfl⟩ := hplaced
  rw [walk, headerLength_of_lookup hlookup, hlength]
  simp only [selectNext]
  rw [if_neg (Nat.not_le.2 hrest), hselect]

end Walk

theorem Follows.eq_walk {registry : FrozenRegistry} {data : Bytes} {limit : Nat}
    {earlier : List HeaderRecord} {protocol : ProtocolId} {offset : Nat} {outcome : Walk}
    (h : registry.Follows data limit earlier protocol offset outcome) :
    ∀ budget, earlier.length + budget = limit →
      outcome = registry.walk data budget earlier protocol offset := by
  induction h with
  | limited hfull =>
    intro budget hbudget
    obtain rfl : budget = 0 := by omega
    rfl
  | unplaced hroom hlookup hlength =>
    intro budget hbudget
    obtain ⟨budget, rfl⟩ : ∃ n, budget = n + 1 := ⟨budget - 1, by omega⟩
    rw [walk, headerLength_of_lookup hlookup, hlength]
  | ended hroom hplaced hend =>
    intro budget hbudget
    obtain ⟨budget, rfl⟩ : ∃ n, budget = n + 1 := ⟨budget - 1, by omega⟩
    exact (walk_of_end budget hplaced hend).symm
  | unbound hroom hplaced hrest hnone =>
    intro budget hbudget
    obtain ⟨budget, rfl⟩ : ∃ n, budget = n + 1 := ⟨budget - 1, by omega⟩
    exact (walk_of_none budget hplaced hrest hnone).symm
  | bound hroom hplaced hrest hwins hlater ih =>
    intro budget hbudget
    obtain ⟨budget, rfl⟩ : ∃ n, budget = n + 1 := ⟨budget - 1, by omega⟩
    have hlength := ih budget (by rw [List.length_append, List.length_singleton]; omega)
    rw [walk_of_wins budget hplaced hrest hwins, ← hlength]

theorem follows_walk (registry : FrozenRegistry) (data : Bytes) (limit budget : Nat)
    (earlier : List HeaderRecord) (protocol : ProtocolId) (offset : Nat)
    (hbudget : earlier.length + budget = limit) (hprotocol : registry.contains protocol) :
    registry.Follows data limit earlier protocol offset
      (registry.walk data budget earlier protocol offset) := by
  induction budget generalizing earlier protocol offset with
  | zero => exact .limited (by omega)
  | succ budget ih =>
    have hroom : earlier.length < limit := by omega
    obtain ⟨descriptor, hlookup⟩ := Option.isSome_iff_exists.1 hprotocol
    cases hlength : descriptor.length.resolve protocol data offset with
    | error error =>
      rw [walk, headerLength_of_lookup hlookup, hlength]
      exact .unplaced hroom hlookup hlength
    | ok length =>
      let current : HeaderRecord :=
        ⟨protocol, offset, length, earlier.countP (·.protocol = protocol)⟩
      have hplaced : registry.Places data earlier protocol offset current :=
        ⟨descriptor, length, hlookup, hlength, rfl⟩
      by_cases hend : data.length ≤ current.stop
      · have hended := Follows.ended hroom hplaced hend
        rwa [hended.eq_walk (budget + 1) hbudget] at hended
      · have hrest := Nat.lt_of_not_le hend
        rcases BindingContext.none_or_wins ⟨data, earlier, current⟩ _
          (registry.bindingsFrom_ranked protocol) with hnone | ⟨winner, hwins⟩
        · have hunbound := Follows.unbound hroom hplaced hrest hnone
          rwa [hunbound.eq_walk (budget + 1) hbudget] at hunbound
        · have hlater := ih (earlier ++ [current]) winner.target current.stop
            (by rw [List.length_append, List.length_singleton]; omega)
            (target_of_mem_bindingsFrom hwins.tried).1
          have hbound := Follows.bound hroom hplaced hrest hwins hlater
          rwa [hbound.eq_walk (budget + 1) hbudget] at hbound

theorem Follows.claimed {registry : FrozenRegistry} {data : Bytes} {limit : Nat}
    {earlier : List HeaderRecord} {protocol : ProtocolId} {offset : Nat} {outcome : Walk}
    (h : registry.Follows data limit earlier protocol offset outcome)
    (hprotocol : protocol ≠ .payload) : ∀ record ∈ outcome.headers, record.isPayload = false := by
  induction h with
  | limited | unplaced => simp
  | ended _ hplaced _ => simpa [HeaderRecord.isPayload, hplaced.protocol_eq] using hprotocol
  | unbound _ hplaced _ _ => simpa [HeaderRecord.isPayload, hplaced.protocol_eq] using hprotocol
  | bound _ hplaced _ hwins _ ih =>
    have hlater := ih (target_of_mem_bindingsFrom hwins.tried).2
    simpa [HeaderRecord.isPayload, hplaced.protocol_eq, hprotocol] using hlater

theorem scan_of_registered (registry : FrozenRegistry) (config : ScanConfig) (root : ProtocolId)
    (data : Bytes) (hroot : registry.contains root) (hpayload : root ≠ .payload)
    (hdata : data ≠ []) :
    registry.scan config root data =
      let walk := registry.walk data config.headerLimit [] root 0
      ⟨data.length, walk.headers ++ (if config.emitPayload then unclaimed walk data.length else []),
        walk.termination, walk.diagnostics⟩ := by
  rw [scan, if_neg (by simp [hroot, hpayload]), if_neg hdata]

theorem isPayload_of_mem_unclaimed {walk : Walk} {bufferLength : Nat} {record : HeaderRecord}
    (h : record ∈ unclaimed walk bufferLength) : record.isPayload = true := by
  simp only [unclaimed] at h
  split at h
  · rw [List.mem_singleton] at h
    rw [h]
    rfl
  · cases h

theorem headers_scan (registry : FrozenRegistry) (config : ScanConfig) (root : ProtocolId)
    (data : Bytes) (hroot : registry.contains root) (hpayload : root ≠ .payload)
    (hdata : data ≠ []) :
    (registry.scan config root data).headers =
      (registry.walk data config.headerLimit [] root 0).headers := by
  have hfollows := registry.follows_walk data config.headerLimit config.headerLimit [] root 0
    (Nat.zero_add _) hroot
  have hheaders := hfollows.claimed hpayload
  rw [scan_of_registered registry config root data hroot hpayload hdata, HeaderChain.headers,
    List.filter_append, List.filter_eq_self.2 (by simpa using hheaders)]
  have hrest : (if config.emitPayload then
      unclaimed (registry.walk data config.headerLimit [] root 0) data.length else []).filter
        (!·.isPayload) = [] := by
    rw [List.filter_eq_nil_iff]
    intro record hrecord
    split at hrecord
    · simp [isPayload_of_mem_unclaimed hrecord]
    · cases hrecord
  rw [hrest, List.append_nil]

theorem walk_scan (registry : FrozenRegistry) (config : ScanConfig) (root : ProtocolId)
    (data : Bytes) (hroot : registry.contains root) (hpayload : root ≠ .payload)
    (hdata : data ≠ []) :
    (registry.scan config root data).walk = registry.walk data config.headerLimit [] root 0 := by
  rw [HeaderChain.walk, headers_scan registry config root data hroot hpayload hdata,
    scan_of_registered registry config root data hroot hpayload hdata]

theorem follows_scan (registry : FrozenRegistry) (config : ScanConfig) (root : ProtocolId)
    (data : Bytes) (hroot : registry.contains root) (hpayload : root ≠ .payload)
    (hdata : data ≠ []) :
    registry.Follows data config.headerLimit [] root 0 (registry.scan config root data).walk := by
  rw [walk_scan registry config root data hroot hpayload hdata]
  exact registry.follows_walk data config.headerLimit config.headerLimit [] root 0
    (Nat.zero_add _) hroot

/-- A scan from a registered root does what the rules say, and they allow nothing else. -/
theorem follows_iff_scan (registry : FrozenRegistry) (config : ScanConfig) (root : ProtocolId)
    (data : Bytes) (hroot : registry.contains root) (hpayload : root ≠ .payload)
    (hdata : data ≠ []) (walk : Walk) :
    registry.Follows data (min config.maxHeaders 65535) [] root 0 walk ↔
      walk = (registry.scan config root data).walk := by
  have hscan := registry.follows_scan config root data hroot hpayload hdata
  constructor
  · intro h
    have hwalk := h.eq_walk config.headerLimit (Nat.zero_add _)
    rw [hwalk, hscan.eq_walk config.headerLimit (Nat.zero_add _)]
  · rintro rfl
    exact hscan

/-- Two protocols: `outer` has two bytes, the first of which is 1 when `inner` follows. An edge of
greater priority never gives an answer. -/
def nested : FrozenRegistry where
  table := ⟨[(⟨1⟩, ⟨none, "outer", "outer", .fixed 2, [], []⟩),
    (⟨2⟩, ⟨none, "inner", "inner", .firstByte, [], []⟩)]⟩
  edges := [⟨⟨1⟩, ⟨2⟩, 5, 1, .failing "no answer"⟩,
    ⟨⟨1⟩, ⟨2⟩, 0, 0, .fieldEquals (.ofBytes 0 1) 1⟩]
  edges_ranked := by decide
  edges_admitted := by
    unfold ProtocolTable.Admits
    decide

/-- The edge of greater priority leaves a diagnostic, the other one names the next header, and
behind that no edge is left. -/
theorem nested_follows :
    nested.contains ⟨1⟩ ∧ (⟨1⟩ : ProtocolId) ≠ .payload ∧ ([1, 0, 2, 9, 7] : Bytes) ≠ [] ∧
      nested.Follows [1, 0, 2, 9, 7] (min 32 65535) [] ⟨1⟩ 0
        ⟨[⟨⟨1⟩, 0, 2, 0⟩, ⟨⟨2⟩, 2, 2, 0⟩], .noBinding,
          [⟨⟨1⟩, ⟨2⟩, 0, .failed "no answer"⟩]⟩ := by
  have hroot : nested.contains ⟨1⟩ := by decide
  have hpayload : (⟨1⟩ : ProtocolId) ≠ .payload := by decide
  have hdata : ([1, 0, 2, 9, 7] : Bytes) ≠ [] := by decide
  exact ⟨hroot, hpayload, hdata,
    (follows_iff_scan nested {} ⟨1⟩ [1, 0, 2, 9, 7] hroot hpayload hdata _).2 rfl⟩

end FrozenRegistry

end Dissection
