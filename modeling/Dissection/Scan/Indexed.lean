import Dissection.ProtocolBits
import Dissection.Scan

/-!
# Scans header by header

A chain that is built up while the scan goes on keeps a set of the protocols in it beside its
records, which answers whether it has a header without a search. A new record is numbered by the
records of its protocol that are there, with 16 bits, and the scan stops before a number would be
given out twice.
-/

namespace Dissection

/-- A header chain with a set of its protocols. -/
structure IndexedChain extends HeaderChain where
  present : ProtocolBits
  deriving DecidableEq

namespace IndexedChain

def empty (bufferLength : Nat) : IndexedChain :=
  ⟨⟨bufferLength, [], .endOfBuffer, []⟩, .empty⟩

/-- The record of the next header. Numbers that do not fit into 16 bits are all taken for the
greatest that does. -/
def recordFor (chain : IndexedChain) (protocol : ProtocolId) (offset length : Nat) : HeaderRecord :=
  ⟨protocol, offset, length, min (chain.instanceCount protocol) 65535⟩

def push (chain : IndexedChain) (protocol : ProtocolId) (offset length : Nat) : IndexedChain :=
  { chain with
    records := chain.records ++ [chain.recordFor protocol offset length]
    present := chain.present.insert protocol }

def finish (chain : IndexedChain) (termination : Termination) (diagnostics : List Diagnostic) :
    IndexedChain :=
  { chain with termination := termination, diagnostics := diagnostics }

/-- Records the bytes from `offset` on as unclaimed, when the configuration asks for that and there
are any. -/
def pushUnclaimed (chain : IndexedChain) (config : ScanConfig) (offset : Nat) : IndexedChain :=
  if config.emitPayload ∧ offset < chain.bufferLength then
    chain.push .payload offset (chain.bufferLength - offset)
  else chain

def protocols (chain : IndexedChain) : ProtocolBits := chain.present

def hasHeader (chain : IndexedChain) (protocol : ProtocolId) : Bool :=
  chain.present.contains protocol

def header? (chain : IndexedChain) (protocol : ProtocolId) (ordinal : Nat) : Option HeaderRecord :=
  if chain.hasHeader protocol then
    chain.records.find? (fun record => record.protocol = protocol ∧ record.ordinal = ordinal)
  else none

def view? (chain : IndexedChain) (data : Bytes) (protocol : ProtocolId) (ordinal : Nat) :
    Option HeaderView :=
  if data.length = chain.bufferLength then
    (chain.header? protocol ordinal).bind (·.view? data)
  else none

end IndexedChain

namespace FrozenRegistry

theorem one_le_of_headerLength {registry : FrozenRegistry} {protocol : ProtocolId} {data : Bytes}
    {offset length : Nat} (h : registry.headerLength protocol data offset = .ok length) :
    1 ≤ length := by
  rw [headerLength] at h
  split at h
  · exact (LengthRule.resolve_bounds h).1
  · cases h

/-- Continues a chain with a header of `protocol` at `offset`, until the scan stops. -/
def extend (registry : FrozenRegistry) (config : ScanConfig) (data : Bytes) (chain : IndexedChain)
    (diagnostics : List Diagnostic) (protocol : ProtocolId) (offset : Nat) : IndexedChain :=
  if config.headerLimit ≤ chain.headerCount then
    (chain.pushUnclaimed config offset).finish .depthLimit diagnostics
  else
    match _hlength : registry.headerLength protocol data offset with
    | .error error => chain.finish (.length error) diagnostics
    | .ok length =>
      let record := chain.recordFor protocol offset length
      let next := chain.push protocol offset length
      if _hend : data.length ≤ record.stop then next.finish .endOfBuffer diagnostics
      else
        match BindingContext.ofHeaders? data next.records with
        | none => next.finish .endOfBuffer diagnostics
        | some context =>
          let selection := registry.selectNext context
          let diagnostics := diagnostics ++ selection.diagnostics
          match selection.target with
          | some target => registry.extend config data next diagnostics target record.stop
          | none =>
            match next.lastHeader? with
            | some last => (next.pushUnclaimed config last.stop).finish .noBinding diagnostics
            | none => next.finish .noBinding diagnostics
termination_by data.length - offset
decreasing_by
  have hpositive := one_le_of_headerLength _hlength
  have hrest : ¬ data.length ≤ offset + length := _hend
  change data.length - (offset + length) < data.length - offset
  omega

/-- The chain of a buffer whose first header belongs to `root`. -/
def scanIndexed (registry : FrozenRegistry) (config : ScanConfig) (root : ProtocolId)
    (data : Bytes) : IndexedChain :=
  let chain := IndexedChain.empty data.length
  if !registry.contains root ∨ root = .payload then chain.finish (.unknownRoot root) []
  else if data = [] then chain.finish .endOfBuffer []
  else registry.extend config data chain [] root 0

end FrozenRegistry

end Dissection
