import Dissection.HeaderChain
import Dissection.Registry.Frozen

/-!
# Scanning

A scan walks the chain of headers of a buffer. It places the root header at offset 0 and, after
every header, lets the bindings of its protocol choose the next one, until the buffer ends, no
binding holds, a header cannot be placed, or the limit on headers is reached. Malformed input never
fails a scan: the chain says why it stopped.
-/

namespace Dissection

structure ScanConfig where
  /-- The greatest number of headers, the record of unclaimed bytes not counted. -/
  maxHeaders : Nat := 32
  /-- Whether unclaimed bytes get a record of their own. -/
  emitPayload : Bool := true

/-- Instances are numbered with 16 bits, so no scan commits more headers than this. -/
def ScanConfig.headerLimit (config : ScanConfig) : Nat := min config.maxHeaders 65535

/-- The headers of a walk, why it stopped, and the diagnostics on the way. -/
structure Walk where
  headers : List HeaderRecord
  termination : Termination
  diagnostics : List Diagnostic

namespace FrozenRegistry

/-- Walks on with a header of `protocol` at `offset`, behind the headers `earlier`, as long as
`budget` headers may still be committed. -/
def walk (registry : FrozenRegistry) (data : Bytes) :
    (budget : Nat) → (earlier : List HeaderRecord) → ProtocolId → (offset : Nat) → Walk
  | 0, _, _, _ => ⟨[], .depthLimit, []⟩
  | budget + 1, earlier, protocol, offset =>
    match registry.headerLength protocol data offset with
    | .error error => ⟨[], .length error, []⟩
    | .ok length =>
      let ordinal := earlier.countP (fun record => record.protocol = protocol)
      let current : HeaderRecord := ⟨protocol, offset, length, ordinal⟩
      if data.length ≤ current.stop then ⟨[current], .endOfBuffer, []⟩
      else
        let selection := registry.selectNext ⟨data, earlier, current⟩
        match selection.target with
        | none => ⟨[current], .noBinding, selection.diagnostics⟩
        | some next =>
          let later := registry.walk data budget (earlier ++ [current]) next current.stop
          ⟨current :: later.headers, later.termination, selection.diagnostics ++ later.diagnostics⟩

/-- The record of the bytes that a walk left unclaimed, when there are any. -/
def unclaimed (walk : Walk) (bufferLength : Nat) : List HeaderRecord :=
  let offset := (walk.headers.getLast?.map (·.stop)).getD 0
  if (walk.termination = .noBinding ∨ walk.termination = .depthLimit) ∧ offset < bufferLength then
    [⟨.payload, offset, bufferLength - offset, 0⟩]
  else []

/-- The header chain of a buffer whose first header belongs to `root`. -/
def scan (registry : FrozenRegistry) (config : ScanConfig) (root : ProtocolId) (data : Bytes) :
    HeaderChain :=
  if !registry.contains root ∨ root = .payload then ⟨data.length, [], .unknownRoot root, []⟩
  else if data = [] then ⟨0, [], .endOfBuffer, []⟩
  else
    let walk := registry.walk data config.headerLimit [] root 0
    let payload := if config.emitPayload then unclaimed walk data.length else []
    ⟨data.length, walk.headers ++ payload, walk.termination, walk.diagnostics⟩

end FrozenRegistry

end Dissection
