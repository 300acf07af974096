import Dissection.ProtocolBits
import Mathlib.Data.Finset.Card
import Mathlib.Data.List.GetD

/-!
# Members of a row of bits

The bits that are set are those of the members, so membership and size are those of the set of the
identifiers put in, whatever words the row has been extended by. An insertion adds no word behind
that of its protocol. The row therefore has no word more than its members need, and equal sets are
equal rows.
-/

namespace Dissection

/-- A place that was added holds what is read where there is no place. -/
theorem getD_rightpad {α : Type} (xs : List α) (fill : α) (length index : Nat) :
    (xs.rightpad length fill).getD index fill = xs.getD index fill := by
  simp only [List.rightpad, List.getD_eq_getElem?_getD, List.getElem?_append,
    List.getElem?_replicate]
  split
  · rfl
  · next hbeyond =>
    rw [List.getElem?_eq_none (Nat.le_of_not_lt hbeyond)]
    split <;> rfl

namespace ProtocolBits

theorem flag_eq_twoPow (id : ProtocolId) : flag id = .twoPow 64 (id.index % 64) := rfl

theorem getLsbD_flag (id : ProtocolId) (place : Nat) :
    (flag id).getLsbD place = decide (place = id.index % 64) := by
  have hin : id.index % 64 < 64 := Nat.mod_lt _ (by decide)
  simp [flag_eq_twoPow, hin, eq_comm]

theorem flag_ne_zero (id : ProtocolId) : flag id ≠ 0 := by
  intro hzero
  have hbit := getLsbD_flag id (id.index % 64)
  simp [hzero] at hbit

/-- A word masked with the bit of a protocol is zero unless it has that bit. -/
theorem contains_eq_bit (set : ProtocolBits) (id : ProtocolId) :
    set.contains id = set.bit id.index := by
  rw [contains, bit, List.getD_eq_getElem?_getD]
  cases set.words[id.index / 64]? with
  | none => simp
  | some word =>
    have hflag := flag_ne_zero id
    rw [Option.any_some, Option.getD_some, flag_eq_twoPow, BitVec.and_twoPow, ← flag_eq_twoPow]
    cases word.getLsbD (id.index % 64) with
    | false => rfl
    | true => simpa using hflag

theorem bit_insert (set : ProtocolBits) (id : ProtocolId) (number : Nat) :
    (set.insert id).bit number = (decide (number = id.index) || set.bit number) := by
  have hplace : number = id.index ↔
      id.index / 64 = number / 64 ∧ number % 64 = id.index % 64 := by omega
  have hword := getD_rightpad set.words 0 (id.index / 64 + 1) (number / 64)
  simp only [bit, insert, ← hword]
  rw [List.getD_eq_getElem?_getD, List.getElem?_modify, List.getD_eq_getElem?_getD]
  by_cases hsame : id.index / 64 = number / 64
  · have hthere : number / 64 < (set.words.rightpad (id.index / 64 + 1) 0).length := by
      rw [List.length_rightpad]
      omega
    rw [List.getElem?_eq_getElem hthere]
    simp [hsame, hplace, getLsbD_flag, Bool.or_comm]
  · simp [hsame, hplace]

@[simp] theorem bit_empty (number : Nat) : empty.bit number = false := by
  simp [bit, empty]

theorem bit_foldl_insert {ids : List ProtocolId} {set : ProtocolBits} {number : Nat} :
    (ids.foldl insert set).bit number = true ↔
      (∃ id ∈ ids, id.index = number) ∨ set.bit number = true := by
  induction ids generalizing set with
  | nil => simp
  | cons first rest ih =>
    rw [List.foldl_cons, ih, bit_insert, Bool.or_eq_true, decide_eq_true_iff,
      List.exists_mem_cons_iff, eq_comm, or_left_comm, or_assoc]

theorem bit_ofList_iff {ids : List ProtocolId} {number : Nat} :
    (ofList ids).bit number = true ↔ ∃ id ∈ ids, id.index = number := by
  simp [ofList, bit_foldl_insert]

theorem contains_ofList_iff {ids : List ProtocolId} {id : ProtocolId} :
    (ofList ids).contains id = true ↔ id ∈ ids := by
  simp [contains_eq_bit, bit_ofList_iff, ProtocolId.index_inj]

/-- No bit is set beyond the last word. -/
theorem lt_of_bit {set : ProtocolBits} {number : Nat} (h : set.bit number = true) :
    number < 64 * set.words.length := by
  by_contra hbeyond
  have hword : set.words.getD (number / 64) 0 = 0 := by
    rw [List.getD_eq_getElem?_getD, List.getElem?_eq_none (by omega), Option.getD_none]
  rw [bit, hword] at h
  simp at h

theorem size_eq_countP (set : ProtocolBits) :
    set.size = (List.range (64 * set.words.length)).countP set.bit := by
  obtain ⟨words⟩ := set
  induction words with
  | nil => rfl
  | cons word rest ih =>
    have hfirst : (List.range 64).countP (ProtocolBits.mk (word :: rest)).bit =
        (List.range 64).countP word.getLsbD := by
      refine List.countP_congr fun number hnumber => ?_
      rw [List.mem_range] at hnumber
      simp [bit, Nat.div_eq_of_lt hnumber, Nat.mod_eq_of_lt hnumber]
    have hlater : (ProtocolBits.mk (word :: rest)).bit ∘ (64 + ·) = (ProtocolBits.mk rest).bit := by
      funext number
      simp [bit, Nat.add_div_left number (by decide : 0 < 64), Nat.add_mod_left]
    rw [List.length_cons, Nat.mul_succ, Nat.add_comm, List.range_add, List.countP_append,
      List.countP_map, hfirst, hlater, ← ih]
    simp [size]

/-- The size of a set counts its members once, however often they occur in the list. -/
theorem size_ofList (ids : List ProtocolId) : (ofList ids).size = ids.toFinset.card := by
  have hbits : ((List.range (64 * (ofList ids).words.length)).filter (ofList ids).bit).toFinset =
      ids.toFinset.image ProtocolId.index := by
    ext number
    rw [List.mem_toFinset, List.mem_filter, Finset.mem_image, List.mem_range, bit_ofList_iff,
      and_iff_right_of_imp]
    · simp
    · exact fun hbit => lt_of_bit (bit_ofList_iff.2 hbit)
  rw [size_eq_countP, List.countP_eq_length_filter,
    ← List.toFinset_card_of_nodup (List.nodup_range.filter _), hbits]
  exact Finset.card_image_of_injective _ fun _ _ => ProtocolId.index_inj.1

/-- In every word of the row or behind it a bit is set, so the row ends with the word of its greatest
member. -/
def Trimmed (set : ProtocolBits) : Prop :=
  ∀ index < set.words.length, ∃ number, 64 * index ≤ number ∧ set.bit number = true

theorem trimmed_empty : empty.Trimmed := fun _ hindex => absurd hindex (Nat.not_lt_zero _)

theorem length_insert (set : ProtocolBits) (id : ProtocolId) :
    (set.insert id).words.length = max (id.index / 64 + 1) set.words.length := by
  rw [insert, List.length_modify, List.length_rightpad]

/-- A word that is added is the one of the protocol or stands in front of it. -/
theorem Trimmed.insert {set : ProtocolBits} (h : set.Trimmed) (id : ProtocolId) :
    (set.insert id).Trimmed := by
  intro index hindex
  rw [length_insert] at hindex
  by_cases hold : index < set.words.length
  · obtain ⟨number, hplace, hbit⟩ := h index hold
    exact ⟨number, hplace, by rw [bit_insert, hbit, Bool.or_true]⟩
  · exact ⟨id.index, by omega, by rw [bit_insert, decide_eq_true rfl, Bool.true_or]⟩

theorem Trimmed.foldl_insert {set : ProtocolBits} (h : set.Trimmed) (ids : List ProtocolId) :
    (ids.foldl ProtocolBits.insert set).Trimmed := by
  induction ids generalizing set with
  | nil => exact h
  | cons first rest ih => exact ih (h.insert first)

theorem trimmed_ofList (ids : List ProtocolId) : (ofList ids).Trimmed :=
  trimmed_empty.foldl_insert ids

theorem Trimmed.length_le {set other : ProtocolBits} (h : set.Trimmed)
    (hbits : ∀ number, set.bit number = true → other.bit number = true) :
    set.words.length ≤ other.words.length := by
  by_contra hlonger
  obtain ⟨number, hplace, hbit⟩ := h other.words.length (Nat.lt_of_not_le hlonger)
  exact Nat.not_lt.2 hplace (lt_of_bit (hbits number hbit))

theorem bit_place (set : ProtocolBits) (index : Nat) {place : Nat} (h : place < 64) :
    set.bit (64 * index + place) = (set.words.getD index 0).getLsbD place := by
  rw [bit, Nat.mul_add_div (by decide), Nat.div_eq_of_lt h, Nat.mul_add_mod, Nat.mod_eq_of_lt h]
  rfl

theorem word_eq_of_bits {set other : ProtocolBits} (h : ∀ number, set.bit number = other.bit number)
    (index : Nat) : set.words.getD index 0 = other.words.getD index 0 := by
  apply BitVec.eq_of_getLsbD_eq
  intro place hplace
  rw [← bit_place set index hplace, h, bit_place other index hplace]

/-- Rows with the same bits have the same words, and neither has a word more. -/
theorem Trimmed.ext {set other : ProtocolBits} (h : set.Trimmed) (hother : other.Trimmed)
    (hbits : ∀ number, set.bit number = other.bit number) : set = other := by
  have hlength : set.words.length = other.words.length :=
    Nat.le_antisymm (h.length_le fun number => (hbits number ▸ ·))
      (hother.length_le fun number => (hbits number ▸ ·))
  have hwords : set.words = other.words := by
    apply List.ext_getElem hlength
    intro index hindex hindex'
    have hword := word_eq_of_bits hbits index
    rwa [List.getD_eq_getElem _ _ hindex, List.getD_eq_getElem _ _ hindex'] at hword
  exact congrArg ProtocolBits.mk hwords

theorem isEmpty_iff {set : ProtocolBits} :
    set.isEmpty = true ↔ ∀ number, set.bit number = false := by
  simp only [isEmpty, List.all_eq_true, decide_eq_true_eq]
  constructor
  · intro hwords number
    have hword : set.words.getD (number / 64) 0 = 0 := by
      by_cases hindex : number / 64 < set.words.length
      · rw [List.getD_eq_getElem _ _ hindex]
        exact hwords _ (List.getElem_mem hindex)
      · exact List.getD_eq_default _ _ (Nat.le_of_not_lt hindex)
    rw [bit, hword]
    exact BitVec.getLsbD_zero
  · intro hbits word hmem
    obtain ⟨index, hindex, rfl⟩ := List.getElem_of_mem hmem
    have hempty (number : Nat) : set.bit number = empty.bit number :=
      (hbits number).trans (bit_empty number).symm
    have hword := word_eq_of_bits hempty index
    rwa [List.getD_eq_getElem _ _ hindex] at hword

theorem isEmpty_ofList_iff {ids : List ProtocolId} : (ofList ids).isEmpty = true ↔ ids = [] := by
  rw [isEmpty_iff, List.eq_nil_iff_forall_not_mem]
  constructor
  · intro hbits id hmem
    have hbit : (ofList ids).bit id.index = true := bit_ofList_iff.2 ⟨id, hmem, rfl⟩
    rw [hbits] at hbit
    cases hbit
  · intro hnone number
    rw [Bool.eq_false_iff, Ne, bit_ofList_iff]
    rintro ⟨id, hmem, _⟩
    exact hnone id hmem

theorem ofList_eq_iff {ids ids' : List ProtocolId} :
    ofList ids = ofList ids' ↔ ids.toFinset = ids'.toFinset := by
  constructor
  · intro hsame
    ext id
    rw [List.mem_toFinset, List.mem_toFinset, ← contains_ofList_iff, hsame, contains_ofList_iff]
  · intro hmembers
    refine (trimmed_ofList ids).ext (trimmed_ofList ids') fun number => ?_
    have hmem (id : ProtocolId) : id ∈ ids ↔ id ∈ ids' := by
      rw [← List.mem_toFinset, hmembers, List.mem_toFinset]
    rw [Bool.eq_iff_iff, bit_ofList_iff, bit_ofList_iff]
    simp only [hmem]

/-- Sets made by insertions have the inserted identifiers as members, each once. They are the same
row of words when they have the same members, in whatever order these came and however often. -/
theorem ofList_canonical (ids ids' : List ProtocolId) :
    (∀ id, (ofList ids).contains id = true ↔ id ∈ ids) ∧
      (ofList ids).size = ids.toFinset.card ∧
      ((ofList ids).isEmpty = true ↔ ids = []) ∧
      (ofList ids = ofList ids' ↔ ids.toFinset = ids'.toFinset) :=
  ⟨fun _ => contains_ofList_iff, size_ofList ids, isEmpty_ofList_iff, ofList_eq_iff⟩

end ProtocolBits

end Dissection
