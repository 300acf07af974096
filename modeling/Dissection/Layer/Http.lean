import Dissection.Binding
import Dissection.Layer.Ports
import Dissection.Length
import Dissection.Text.Blank
import Dissection.Text.Number

/-!
# Hypertext transfer

The head of an HTTP/1 message: a start line and header fields, each on a line of its own, up to and
including the first blank line. The body is left unclaimed.
-/

namespace Dissection.Http

def ascii (text : String) : Bytes := text.toList.map (fun c => c.toNat.toUInt8)

def headEnd : Bytes := [13, 10, 13, 10]

/-- The number of bytes up to the first blank line, that line included. -/
def headLength? : Bytes → Option Nat
  | [] => none
  | first :: rest =>
    if headEnd.isPrefixOf (first :: rest) then some headEnd.length
    else (headLength? rest).map (· + 1)

/-- The length of a message head. A head without a blank line lacks at least one byte. -/
def measure (tail : Bytes) : Except Shortfall Nat :=
  match headLength? tail with
  | some length => .ok length
  | none => .error ⟨tail.length + 1⟩

/-- What the first bytes of a message are: a version or a method. -/
def beginnings : List Bytes :=
  ["HTTP/", "GET ", "POST ", "PUT ", "HEAD ", "DELETE ", "OPTIONS ", "PATCH ", "CONNECT ",
    "TRACE "].map ascii

def looksLikeMessage (payload : Bytes) : Bool :=
  beginnings.any (fun beginning => beginning.isPrefixOf payload)

def ports : List Nat := [80, 8080]

/-- Holds for a segment from or to an HTTP port whose data begins like a message. -/
def detect : Predicate := fun context =>
  match Ports.ofView context.view with
  | .error error => .error (.field error)
  | .ok (source, destination) =>
    .ok ((ports.contains source || ports.contains destination) && looksLikeMessage context.payload)

inductive StartLine where
  | request (method target version : String)
  | response (version : String) (status : Nat) (reason : String)
  deriving DecidableEq

structure Head where
  startLine : StartLine
  fields : List (String × String)
  deriving DecidableEq

/-- Cuts text at every carriage return that a line feed follows. -/
def splitLines : List Char → List (List Char)
  | [] => [[]]
  | '\r' :: '\n' :: rest => [] :: splitLines rest
  | c :: rest =>
    match splitLines rest with
    | [] => [[c]]
    | line :: lines => (c :: line) :: lines

/-- Cuts text at the first mark, which is dropped. -/
def splitAt? (mark : Char) : List Char → Option (List Char × List Char)
  | [] => none
  | c :: rest =>
    if c = mark then some ([], rest)
    else (splitAt? mark rest).map (fun halves => (c :: halves.1, halves.2))

/-- Reads a start line: two parts, and after a second space the rest of the line. -/
def StartLine.parse? (line : List Char) : Option StartLine := do
  let (first, rest) ← splitAt? ' ' line
  let (second, third) := (splitAt? ' ' rest).getD (rest, [])
  if "HTTP/".toList.isPrefixOf first then
    let status ← Text.Number.parse? 65536 second
    return .response (.ofList first) status (.ofList third)
  else
    return .request (.ofList first) (.ofList second) (.ofList third)

/-- Reads a header field; a line without a colon is none. -/
def field? (line : List Char) : Option (String × String) :=
  (splitAt? ':' line).map (fun halves =>
    (.ofList (Text.trim halves.1), .ofList (Text.trim halves.2)))

namespace Head

/-- Reads the text of a message head. Empty lines are passed over. -/
def parse? (text : List Char) : Option Head :=
  match (splitLines text).filter (· ≠ []) with
  | [] => none
  | first :: lines =>
    (StartLine.parse? first).map (fun startLine => ⟨startLine, lines.filterMap field?⟩)

/-- The head in a header, when it is text and its start line is well formed. -/
def ofView? (view : HeaderView) : Option Head :=
  (String.fromUTF8? view.bytes.toByteArray).bind (fun text => parse? text.toList)

/-- Whether two names differ at most in the case of ASCII letters. -/
def sameName (a b : String) : Bool := a.toList.map Char.toLower == b.toList.map Char.toLower

/-- The value of the first field with a name, whose case does not matter. -/
def value? (head : Head) (name : String) : Option String :=
  (head.fields.find? (fun field => sameName field.1 name)).map Prod.snd

def contentLength? (head : Head) : Option Nat :=
  (head.value? "content-length").bind (fun value => Text.Number.parse? UInt64.size value.toList)

end Head

end Dissection.Http
