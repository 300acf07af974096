import Mathlib.Data.List.DropRight
import Mathlib.Data.List.Forall2
import Dissection.Proofs.Scan.Truncation

/-!
# Heads of messages on the wire

A head is written as its start line and its fields, each on a line of its own, and an empty line.
Measuring finds where what was written ends, whatever body follows, and reading gives back the start
line and the fields. The searches for the end of a line, for a space and for a colon all stop at the
first mark, and what is written in front of that one holds no other.
-/

namespace Dissection

namespace Text

/-- Begins and ends with a character that is no blank, if with any. -/
def Trimmed (text : List Char) : Prop :=
  text.head?.any isBlank = false ∧ text.getLast?.any isBlank = false

instance (text : List Char) : Decidable (Trimmed text) := inferInstanceAs (Decidable (_ ∧ _))

theorem trim_eq_self {text : List Char} (h : Trimmed text) : trim text = text := by
  obtain ⟨hfirst, hlast⟩ := h
  have hdropped : text.dropWhile isBlank = text := by
    cases text with
    | nil => rfl
    | cons c rest => exact List.dropWhile_cons_of_neg (by simpa using hfirst)
  rw [trim, hdropped]
  refine List.rdropWhile_eq_self_iff.2 fun hne => ?_
  rw [List.getLast?_eq_getLast_of_ne_nil hne, Option.any_some] at hlast
  rw [hlast]
  exact Bool.false_ne_true

theorem trim_cons {c : Char} (h : isBlank c = true) (text : List Char) :
    trim (c :: text) = trim text := by
  rw [trim, trim, List.dropWhile_cons_of_pos h]

namespace Number

theorem ofDigits?_eq {digits : List Char} (h : ∀ c ∈ digits, c.isDigit = true) (value : Nat) :
    ofDigits? value digits = some (Nat.ofDigitChars 10 digits value) := by
  induction digits generalizing value with
  | nil => rfl
  | cons c rest ih =>
    obtain ⟨hdigit, hrest⟩ := List.forall_mem_cons.1 h
    rw [ofDigits?, if_pos hdigit, ih hrest, Nat.mul_comm]
    rfl

theorem unsigned_eq_self {digits : List Char} (h : ∀ c ∈ digits, c.isDigit = true) :
    unsigned digits = digits := by
  unfold unsigned
  split
  · exact absurd (h '+' List.mem_cons_self) (by decide)
  · rfl

theorem not_mem_toDigits {c : Char} (h : c.isDigit = false) (number : Nat) :
    c ∉ Nat.toDigits 10 number := by
  intro hmem
  have hdigit := Nat.isDigit_of_mem_toDigits (by decide) (by decide) hmem
  exact absurd (hdigit.symm.trans h) (by decide)

/-- A number that is written in decimal is read back. -/
theorem parse?_toDigits {number limit : Nat} (h : number < limit) :
    parse? limit (Nat.toDigits 10 number) = some number := by
  have hdigits : ∀ c ∈ Nat.toDigits 10 number, c.isDigit = true :=
    fun c => Nat.isDigit_of_mem_toDigits (by decide) (by decide)
  simp only [parse?, unsigned_eq_self hdigits, if_neg Nat.toDigits_ne_nil, ofDigits?_eq hdigits,
    Nat.ofDigitChars_toDigits (show 1 < 10 by decide) (Nat.le_refl 10)]
  simp [h]

end Number

end Text

namespace Http

/-- Lines with a mark behind each of them, and one more mark. -/
def closeLines {α : Type} (mark : List α) (lines : List (List α)) : List α :=
  lines.flatMap (· ++ mark) ++ mark

theorem closeLines_cons {α : Type} (mark line : List α) (lines : List (List α)) :
    closeLines mark (line :: lines) = line ++ (mark ++ closeLines mark lines) := by
  simp [closeLines]

/-- The parts of a start line, with a space between two of them. -/
def StartLine.text : StartLine → List Char
  | request method target version =>
    [' '].intercalate [method.toList, target.toList, version.toList]
  | response version status reason =>
    [' '].intercalate [version.toList, Nat.toDigits 10 status, reason.toList]

def fieldText (field : String × String) : List Char :=
  field.1.toList ++ ':' :: ' ' :: field.2.toList

namespace Head

def lines (head : Head) : List (List Char) := head.startLine.text :: head.fields.map fieldText

def text (head : Head) : List Char := closeLines ['\r', '\n'] head.lines

def encode (head : Head) : Bytes := head.text.flatMap String.utf8EncodeChar

end Head

/-- No carriage return is in the text. A line feed on its own ends no line. -/
def OneLine (text : String) : Prop := '\r' ∉ text.toList

instance (text : String) : Decidable (OneLine text) := inferInstanceAs (Decidable (_ ∉ _))

/-- A start line whose parts can be told apart. -/
def StartLine.WellFormed : StartLine → Prop
  | request method target version =>
    (OneLine method ∧ OneLine target ∧ OneLine version) ∧
      ' ' ∉ method.toList ∧ ' ' ∉ target.toList ∧ ¬"HTTP/".toList <+: method.toList
  | response version status reason =>
    (OneLine version ∧ OneLine reason) ∧
      ' ' ∉ version.toList ∧ "HTTP/".toList <+: version.toList ∧ status < 65536

/-- A field whose name ends at the colon that is written behind it. -/
structure FieldWellFormed (field : String × String) : Prop where
  name_oneLine : OneLine field.1
  value_oneLine : OneLine field.2
  colon : ':' ∉ field.1.toList
  name_trimmed : Text.Trimmed field.1.toList
  value_trimmed : Text.Trimmed field.2.toList

structure Head.WellFormed (head : Head) : Prop where
  startLine : head.startLine.WellFormed
  fields : ∀ field ∈ head.fields, FieldWellFormed field

section Measure

variable {line rest : Bytes} {lines : List Bytes}

/-- No blank line begins where a byte is no carriage return. -/
theorem headLength?_cons {byte : UInt8} (h : byte ≠ 13) :
    headLength? (byte :: rest) = (headLength? rest).map (· + 1) := by
  rw [headLength?, if_neg]
  simp [headEnd, h.symm]

theorem headLength?_append_left (h : 13 ∉ line) :
    headLength? (line ++ rest) = (headLength? rest).map (· + line.length) := by
  induction line with
  | nil => simp
  | cons byte line ih =>
    obtain ⟨hbyte, hline⟩ := List.ne_and_not_mem_of_not_mem_cons h
    rw [List.cons_append, headLength?_cons hbyte.symm, ih hline, Option.map_map]
    rfl

/-- The end of a line is no blank line when another line follows. -/
theorem headLength?_lineEnd (hline : line ≠ []) (hreturn : 13 ∉ line) :
    headLength? (13 :: 10 :: (line ++ rest)) = (headLength? (line ++ rest)).map (· + 2) := by
  obtain ⟨byte, line, rfl⟩ := List.exists_cons_of_ne_nil hline
  have hbyte : 13 ≠ byte := (List.ne_and_not_mem_of_not_mem_cons hreturn).1
  rw [headLength?, if_neg (by simp [headEnd, hbyte]), headLength?_cons (by decide),
    Option.map_map]
  rfl

/-- The first blank line is the one behind the last line. -/
theorem headLength?_closeLines (hne : lines ≠ [])
    (h : ∀ line ∈ lines, line ≠ [] ∧ 13 ∉ line) :
    headLength? (closeLines [13, 10] lines) = some (closeLines [13, 10] lines).length := by
  induction lines with
  | nil => exact absurd rfl hne
  | cons line lines ih =>
    obtain ⟨⟨-, hreturn⟩, hlines⟩ := List.forall_mem_cons.1 h
    rw [closeLines_cons, headLength?_append_left hreturn]
    cases lines with
    | nil => simp [closeLines, headLength?, headEnd, Nat.add_comm]
    | cons next lines =>
      obtain ⟨hnext, hnextReturn⟩ := hlines next List.mem_cons_self
      have hfollow := ih (List.cons_ne_nil _ _) hlines
      rw [closeLines_cons] at hfollow ⊢
      rw [List.cons_append, List.singleton_append, headLength?_lineEnd hnext hnextReturn, hfollow]
      simp only [Option.map_some, List.length_append, List.length_cons]
      congr 1
      omega

end Measure

/-- A byte below 128 is the code of its character: the bytes of a longer code are larger. -/
theorem toNat_of_mem_utf8EncodeChar {c : Char} {byte : UInt8}
    (h : byte ∈ String.utf8EncodeChar c) : byte.toNat = c.toNat ∨ 128 ≤ byte.toNat := by
  have hcode : c.val.toNat = c.toNat := rfl
  rw [String.utf8EncodeChar, hcode] at h
  split_ifs at h <;>
    simp only [List.mem_cons, List.not_mem_nil, or_false, ← UInt8.toNat_inj,
      UInt8.toNat_ofNat'] at h <;>
    omega

/-- A line without a carriage return is written without its byte. -/
theorem not_mem_flatMap_utf8EncodeChar {line : List Char} (h : '\r' ∉ line) :
    13 ∉ line.flatMap String.utf8EncodeChar := by
  intro hmem
  obtain ⟨c, hc, hbyte⟩ := List.mem_flatMap.1 hmem
  rcases toNat_of_mem_utf8EncodeChar hbyte with hcode | hlarge
  · obtain rfl : '\r' = c := Char.toNat_inj.1 hcode
    exact h hc
  · exact absurd hlarge (by decide)

theorem flatMap_utf8EncodeChar_ne_nil {line : List Char} (h : line ≠ []) :
    line.flatMap String.utf8EncodeChar ≠ [] := by
  obtain ⟨c, rest, rfl⟩ := List.exists_cons_of_ne_nil h
  rw [List.flatMap_cons]
  exact List.append_ne_nil_of_left_ne_nil String.utf8EncodeChar_ne_nil _

theorem flatMap_closeLines (lines : List (List Char)) :
    (closeLines ['\r', '\n'] lines).flatMap String.utf8EncodeChar =
      closeLines [13, 10] (lines.map (·.flatMap String.utf8EncodeChar)) := by
  induction lines with
  | nil => decide
  | cons line lines ih =>
    rw [List.map_cons, closeLines_cons, closeLines_cons, List.flatMap_append, List.flatMap_append,
      ih]
    rfl

section Cut

variable {mark : Char} {front back line rest : List Char} {lines : List (List Char)}

theorem splitAt?_append (h : mark ∉ front) :
    splitAt? mark (front ++ mark :: back) = some (front, back) := by
  induction front with
  | nil => rw [List.nil_append, splitAt?, if_pos rfl]
  | cons c front ih =>
    obtain ⟨hc, hfront⟩ := List.ne_and_not_mem_of_not_mem_cons h
    rw [List.cons_append, splitAt?, if_neg hc.symm, ih hfront]
    rfl

theorem splitLines_append (h : '\r' ∉ line) :
    splitLines (line ++ '\r' :: '\n' :: rest) = line :: splitLines rest := by
  induction line with
  | nil => rfl
  | cons c line ih =>
    obtain ⟨hc, hline⟩ := List.ne_and_not_mem_of_not_mem_cons h
    rw [List.cons_append, splitLines, ih hline]
    rintro more rfl
    exact absurd rfl hc

theorem splitLines_closeLines (h : ∀ line ∈ lines, '\r' ∉ line) :
    splitLines (closeLines ['\r', '\n'] lines) = lines ++ [[], []] := by
  induction lines with
  | nil => rfl
  | cons line lines ih =>
    obtain ⟨hline, hlines⟩ := List.forall_mem_cons.1 h
    rw [closeLines_cons, List.cons_append, List.singleton_append, splitLines_append hline,
      ih hlines]
    rfl

end Cut

theorem StartLine.return_not_mem_text {line : StartLine} (h : line.WellFormed) :
    '\r' ∉ line.text := by
  cases line with
  | request method target version =>
    obtain ⟨⟨hmethod, htarget, hversion⟩, -⟩ := h
    simp only [OneLine] at hmethod htarget hversion
    simp [text, List.intercalate, hmethod, htarget, hversion]
  | response version status reason =>
    obtain ⟨⟨hversion, hreason⟩, -⟩ := h
    have hdigits : '\r' ∉ Nat.toDigits 10 status := Text.Number.not_mem_toDigits (by decide) status
    simp only [OneLine] at hversion hreason
    simp [text, List.intercalate, hversion, hdigits, hreason]

theorem StartLine.text_ne_nil (line : StartLine) : line.text ≠ [] := by
  cases line <;> simp [text, List.intercalate]

theorem return_not_mem_fieldText {field : String × String} (h : FieldWellFormed field) :
    '\r' ∉ fieldText field := by
  have hname := h.name_oneLine
  have hvalue := h.value_oneLine
  simp only [OneLine] at hname hvalue
  simp [fieldText, hname, hvalue]

theorem StartLine.parse?_intercalate {first second : List Char} (hfirst : ' ' ∉ first)
    (hsecond : ' ' ∉ second) (third : List Char) :
    parse? ([' '].intercalate [first, second, third]) =
      if "HTTP/".toList.isPrefixOf first then
        (Text.Number.parse? 65536 second).map (response (.ofList first) · (.ofList third))
      else some (request (.ofList first) (.ofList second) (.ofList third)) := by
  have hparts : [' '].intercalate [first, second, third] =
      first ++ ' ' :: (second ++ ' ' :: third) := by simp [List.intercalate]
  rw [hparts, parse?, splitAt?_append hfirst]
  simp only [Option.bind_eq_bind, Option.bind_some, splitAt?_append hsecond, Option.getD_some,
    Option.map_eq_bind]
  rfl

theorem StartLine.parse?_text {line : StartLine} (h : line.WellFormed) :
    parse? line.text = some line := by
  cases line with
  | request method target version =>
    obtain ⟨-, hmethod, htarget, hbeginning⟩ := h
    rw [← List.isPrefixOf_iff_prefix] at hbeginning
    rw [text, parse?_intercalate hmethod htarget, if_neg hbeginning]
    simp only [String.ofList_toList]
  | response version status reason =>
    obtain ⟨-, hversion, hbeginning, hstatus⟩ := h
    have hspace : ' ' ∉ Nat.toDigits 10 status := Text.Number.not_mem_toDigits (by decide) status
    rw [← List.isPrefixOf_iff_prefix] at hbeginning
    rw [text, parse?_intercalate hversion hspace, if_pos hbeginning,
      Text.Number.parse?_toDigits hstatus]
    simp only [Option.map_some, String.ofList_toList]

theorem field?_fieldText {field : String × String} (h : FieldWellFormed field) :
    field? (fieldText field) = some field := by
  have hblank : Text.isBlank ' ' = true := by decide
  rw [field?, fieldText, splitAt?_append h.colon]
  simp only [Option.map_some, Text.trim_cons hblank, Text.trim_eq_self h.name_trimmed,
    Text.trim_eq_self h.value_trimmed, String.ofList_toList]

namespace Head

variable {head : Head}

theorem WellFormed.line (h : head.WellFormed) {line : List Char} (hline : line ∈ head.lines) :
    line ≠ [] ∧ '\r' ∉ line := by
  rcases List.mem_cons.1 hline with rfl | hfield
  · exact ⟨head.startLine.text_ne_nil, StartLine.return_not_mem_text h.startLine⟩
  · obtain ⟨field, hmem, rfl⟩ := List.mem_map.1 hfield
    exact ⟨by simp [fieldText], return_not_mem_fieldText (h.fields field hmem)⟩

theorem WellFormed.measure_encode (h : head.WellFormed) (body : Bytes) :
    measure (head.encode ++ body) = .ok head.encode.length := by
  refine measure_append body ?_
  have hlines : ∀ bytes ∈ head.lines.map (·.flatMap String.utf8EncodeChar),
      bytes ≠ [] ∧ 13 ∉ bytes := by
    intro bytes hbytes
    obtain ⟨line, hline, rfl⟩ := List.mem_map.1 hbytes
    exact ⟨flatMap_utf8EncodeChar_ne_nil (h.line hline).1,
      not_mem_flatMap_utf8EncodeChar (h.line hline).2⟩
  have hlength := headLength?_closeLines (by simp [lines]) hlines
  rw [← flatMap_closeLines] at hlength
  rw [measure, encode, text, hlength]

theorem WellFormed.parse?_text (h : head.WellFormed) : parse? head.text = some head := by
  have hlines : (head.lines ++ [[], []]).filter (· ≠ []) = head.lines := by
    have hkept : head.lines.filter (· ≠ []) = head.lines :=
      List.filter_eq_self.2 fun line hline => by simpa using (h.line hline).1
    rw [List.filter_append, hkept]
    exact List.append_nil _
  have hfields : (head.fields.map fieldText).filterMap field? = head.fields := by
    rw [List.filterMap_map]
    exact (List.filterMap_congr fun field hfield => field?_fieldText (h.fields field hfield)).trans
      List.filterMap_some
  rw [parse?, text, splitLines_closeLines fun line hline => (h.line hline).2, hlines, lines]
  simp only [StartLine.parse?_text h.startLine, Option.map_some, hfields]

theorem WellFormed.ofView?_encode (h : head.WellFormed) {view : HeaderView}
    (hview : view.bytes = head.encode) : ofView? view = some head := by
  have hbytes : view.bytes.toByteArray = (String.ofList head.text).toByteArray := by
    rw [hview, String.toByteArray_ofList]
    rfl
  have hvalid : view.bytes.toByteArray.IsValidUTF8 := by
    rw [hbytes, String.toByteArray_ofList]
    exact ByteArray.isValidUTF8_utf8Encode
  have htext : String.fromUTF8? view.bytes.toByteArray = some (.ofList head.text) := by
    rw [String.fromUTF8?, dif_pos hvalid]
    exact congrArg some (String.toByteArray_inj.1 hbytes)
  rw [ofView?, htext, Option.bind_some, String.toList_ofList, h.parse?_text]

end Head

def SameLetter (a b : Char) : Prop :=
  a = b ∨ (a.isUpper ∧ b.toNat = a.toNat + 32) ∨ (b.isUpper ∧ a.toNat = b.toNat + 32)

def SameName (a b : String) : Prop := List.Forall₂ SameLetter a.toList b.toList

theorem isUpper_iff {c : Char} : c.isUpper = true ↔ 65 ≤ c.toNat ∧ c.toNat ≤ 90 :=
  decide_eq_true_iff

theorem toNat_toLower (c : Char) :
    c.toLower.toNat = if c.isUpper then c.toNat + 32 else c.toNat := by
  by_cases hupper : c.isUpper = true
  · have hsmall := (isUpper_iff.1 hupper).2
    have hlower : c.toLower.toNat = (c.val + 32).toNat :=
      congrArg Char.toNat (dif_pos (of_decide_eq_true hupper))
    rw [if_pos hupper, hlower, UInt32.toNat_add]
    exact Nat.mod_eq_of_lt (show c.toNat + 32 < 2 ^ 32 by omega)
  · have hlower : c.toLower = c := dif_neg fun hbetween => hupper (decide_eq_true hbetween)
    rw [if_neg hupper, hlower]

theorem toLower_eq_toLower_iff {a b : Char} : a.toLower = b.toLower ↔ SameLetter a b := by
  rw [← Char.toNat_inj, SameLetter, ← Char.toNat_inj, toNat_toLower, toNat_toLower]
  simp only [isUpper_iff]
  split_ifs <;> omega

theorem sameName_iff {a b : String} : Head.sameName a b = true ↔ SameName a b := by
  rw [Head.sameName, beq_iff_eq, ← List.forall₂_eq_eq_eq, List.forall₂_map_left_iff,
    List.forall₂_map_right_iff]
  simp only [toLower_eq_toLower_iff]
  rfl

theorem Head.value?_eq_some_iff {head : Head} {name value : String} :
    head.value? name = some value ↔
      ∃ earlier field later, head.fields = earlier ++ field :: later ∧
        SameName field.1 name ∧ field.2 = value ∧ ∀ other ∈ earlier, ¬SameName other.1 name := by
  simp only [value?, Option.map_eq_some_iff, List.find?_eq_some_iff_append, sameName_iff,
    Bool.not_eq_true', ← Bool.not_eq_true]
  constructor
  · rintro ⟨field, ⟨hname, earlier, later, hfields, hearlier⟩, hvalue⟩
    exact ⟨earlier, field, later, hfields, hname, hvalue, hearlier⟩
  · rintro ⟨earlier, field, later, hfields, hname, hvalue, hearlier⟩
    exact ⟨field, ⟨hname, earlier, later, hfields, hearlier⟩, hvalue⟩

/-- A well-formed head that has been written is measured to its end, whatever body follows, and is
read back as it was. A search by name finds the first field whose name is the same but for case. -/
theorem Head.reads_back (head : Head) (h : head.WellFormed) :
    (∀ body, measure (head.encode ++ body) = .ok head.encode.length) ∧
      (∀ view : HeaderView, view.bytes = head.encode → ofView? view = some head) ∧
      ∀ name value, head.value? name = some value ↔
        ∃ earlier field later, head.fields = earlier ++ field :: later ∧
          SameName field.1 name ∧ field.2 = value ∧
            ∀ other ∈ earlier, ¬SameName other.1 name :=
  ⟨h.measure_encode, fun _ => h.ofView?_encode, fun _ _ => value?_eq_some_iff⟩

/-- A request whose target is not ASCII, with one field written in two ways. -/
def search : Head where
  startLine := .request "GET" "/find?q=é" "HTTP/1.1"
  fields := [("Host", "a.example"), ("X-Note", "kept: \"as is\""), ("host", "")]

theorem search_wellFormed : search.WellFormed where
  startLine := by
    unfold search StartLine.WellFormed
    decide
  fields := by
    intro field hfield
    simp only [search, List.mem_cons, List.not_mem_nil, or_false] at hfield
    rcases hfield with rfl | rfl | rfl <;> constructor <;> decide

/-- The written request, behind one byte and in front of a body. -/
def searchView : HeaderView where
  data := 0 :: (search.encode ++ [104, 105])
  record := ⟨BuiltIn.http.id, 1, search.encode.length, 0⟩

theorem search_reads_back :
    search.WellFormed ∧ measure (search.encode ++ [104, 105]) = .ok search.encode.length ∧
      search.encode.length = 75 ∧ Head.ofView? searchView = some search ∧
      search.value? "HOST" = some "a.example" := by
  obtain ⟨hmeasure, hread, hvalue⟩ := Head.reads_back search search_wellFormed
  refine ⟨search_wellFormed, hmeasure [104, 105], by decide, hread searchView ?_, ?_⟩
  · simp [searchView, HeaderView.bytes]
  · refine (hvalue "HOST" "a.example").2 ⟨[], _, _, rfl, ?_, rfl, by simp⟩
    exact sameName_iff.1 (by decide)

end Http

end Dissection
