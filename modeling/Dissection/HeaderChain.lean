import Dissection.Binding
import Dissection.Length

/-!
# Header chains

The result of a scan: the headers found in wire order, at most one record for the unclaimed bytes
after them, the reason why the scan stopped, and the diagnostics it left.
-/

namespace Dissection

inductive Termination where
  /-- The last header ended at the end of the buffer, or the buffer was empty. -/
  | endOfBuffer
  /-- No binding held, so the rest of the buffer is unclaimed. -/
  | noBinding
  /-- The next header could not be placed. -/
  | length (error : LengthError)
  /-- The limit on the number of headers was reached. -/
  | depthLimit
  /-- The scan was asked to start with a protocol that is not registered. -/
  | unknownRoot (root : ProtocolId)
  deriving DecidableEq

structure HeaderChain where
  bufferLength : Nat
  records : List HeaderRecord
  termination : Termination
  diagnostics : List Diagnostic
  deriving DecidableEq

namespace HeaderChain

/-- The records that stand for headers. -/
def headers (chain : HeaderChain) : List HeaderRecord := chain.records.filter (!·.isPayload)

def headerCount (chain : HeaderChain) : Nat := chain.headers.length

def protocols (chain : HeaderChain) : ProtocolSet := .ofList (chain.records.map (·.protocol))

def hasHeader (chain : HeaderChain) (protocol : ProtocolId) : Bool :=
  chain.protocols.contains protocol

def instanceCount (chain : HeaderChain) (protocol : ProtocolId) : Nat :=
  chain.records.countP (fun record => record.protocol = protocol)

/-- The record of `protocol` with the given ordinal, the outermost having ordinal 0. -/
def header? (chain : HeaderChain) (protocol : ProtocolId) (ordinal : Nat) : Option HeaderRecord :=
  if chain.hasHeader protocol then
    chain.records.find? (fun record => record.protocol = protocol ∧ record.ordinal = ordinal)
  else none

def lastHeader? (chain : HeaderChain) : Option HeaderRecord := chain.headers.getLast?

def payload? (chain : HeaderChain) : Option HeaderRecord :=
  chain.records.getLast?.filter (·.isPayload)

/-- Whether the scan stopped because bytes are missing from the buffer. -/
def isTruncated (chain : HeaderChain) : Bool :=
  match chain.termination with
  | .length error => error.isTruncated
  | _ => false

/-- A view of one record over the buffer that was scanned. -/
def view? (chain : HeaderChain) (data : Bytes) (protocol : ProtocolId) (ordinal : Nat) :
    Option HeaderView :=
  if data.length = chain.bufferLength then
    (chain.header? protocol ordinal).bind (·.view? data)
  else none

end HeaderChain

end Dissection
