import Dissection.Proofs.Reassembly.Retention
import Mathlib.Algebra.BigOperators.Ring.List
import Mathlib.Algebra.Ring.Nat
import Mathlib.Data.List.Flatten
import Mathlib.Data.List.Infix

/-!
# The pieces of a datagram

A datagram is cut into consecutive pieces, none of them empty, and the pieces arrive as fragments
in any order and any number of times. A sequence that was offered nothing else is covered exactly
when every piece has arrived, and then its bytes are the datagram.
-/

namespace Dissection

/-- A datagram in consecutive pieces, none of them empty. -/
structure Cut (datagram : Bytes) where
  pieces : List Bytes
  ne_nil : ∀ piece ∈ pieces, piece ≠ []
  whole : pieces.flatten = datagram

/-- One arrival of one of the pieces. -/
structure Arrival {datagram : Bytes} (cut : Cut datagram) where
  index : Fin cut.pieces.length
  time : Timestamp

variable {datagram : Bytes} {cut : Cut datagram}

namespace Cut

theorem split_at (cut : Cut datagram) (index : Fin cut.pieces.length) :
    (cut.pieces.take index).flatten ++
      (cut.pieces[index] ++ (cut.pieces.drop (index + 1)).flatten) = datagram := by
  rw [← List.flatten_cons, Fin.getElem_fin, ← List.drop_eq_getElem_cons, ← List.flatten_append,
    List.take_append_drop, cut.whole]

theorem exists_index_of_flatten {pieces : List Bytes} {position : Nat}
    (h : position < pieces.flatten.length) :
    ∃ index : Fin pieces.length, (pieces.take index).flatten.length ≤ position ∧
      position < (pieces.take (index + 1)).flatten.length := by
  induction pieces generalizing position with
  | nil => simp at h
  | cons piece rest ih =>
    by_cases hfirst : position < piece.length
    · exact ⟨⟨0, by simp⟩, by simp, by simpa using hfirst⟩
    · rw [List.flatten_cons, List.length_append] at h
      have hbehind : position - piece.length < rest.flatten.length := by omega
      obtain ⟨index, hstart, hstop⟩ := ih hbehind
      refine ⟨index.succ, ?_, ?_⟩
      · simp only [Fin.val_succ, List.take_succ_cons, List.flatten_cons, List.length_append]
        omega
      · simp only [Fin.val_succ, List.take_succ_cons, List.flatten_cons, List.length_append]
        omega

end Cut

namespace Arrival

/-- The piece at its offset in the datagram; more follow unless it is the last one. -/
def fragment (arrival : Arrival cut) : Fragment :=
  .ofPayload (cut.pieces.take arrival.index).flatten.length cut.pieces[arrival.index]
    (decide (arrival.index + 1 < cut.pieces.length)) arrival.time

theorem hasBytes_fragment (arrival : Arrival cut) : arrival.fragment.HasBytes :=
  ⟨cut.pieces[arrival.index], rfl, rfl⟩

theorem length_pos (arrival : Arrival cut) : 0 < arrival.fragment.length :=
  List.length_pos_iff.2 (cut.ne_nil _ (List.getElem_mem _))

theorem sameRange_of_index_eq {a b : Arrival cut} (h : a.index = b.index) :
    a.fragment.SameRange b.fragment := by
  simp [Fragment.SameRange, fragment, Fragment.ofPayload, h]

theorem stop_fragment (arrival : Arrival cut) :
    arrival.fragment.stop = (cut.pieces.take (arrival.index + 1)).flatten.length := by
  change (cut.pieces.take arrival.index).flatten.length + cut.pieces[arrival.index].length = _
  rw [List.take_add_one, List.flatten_append, List.length_append]
  simp

theorem stop_le (arrival : Arrival cut) : arrival.fragment.stop ≤ datagram.length := by
  have hle := (List.take_sublist (arrival.index + 1) cut.pieces).flatten.length_le
  rw [cut.whole] at hle
  rw [stop_fragment]
  exact hle

theorem datagram_ne_nil (arrival : Arrival cut) : datagram ≠ [] := by
  have hpos := arrival.length_pos
  have hle := arrival.stop_le
  unfold Fragment.stop at hle
  exact List.length_pos_iff.1 (by omega)

theorem stop_le_offset {a b : Arrival cut} (h : a.index < b.index) :
    a.fragment.stop ≤ b.fragment.offset := by
  rw [stop_fragment]
  exact (List.take_sublist_take_left h).flatten.length_le

theorem offset_pos (arrival : Arrival cut) (h : 0 < arrival.index.val) :
    0 < arrival.fragment.offset := by
  let first : Arrival cut := ⟨⟨0, Nat.zero_lt_of_lt arrival.index.isLt⟩, arrival.time⟩
  have hpos := first.length_pos
  have hle : first.fragment.stop ≤ arrival.fragment.offset := Arrival.stop_le_offset h
  unfold Fragment.stop at hle
  omega

theorem stop_of_last {arrival : Arrival cut} (h : arrival.fragment.more = false) :
    arrival.fragment.stop = datagram.length := by
  have hlast : cut.pieces.length ≤ arrival.index + 1 := by
    simpa [fragment, Fragment.ofPayload] using h
  rw [stop_fragment, List.take_of_length_le hlast, cut.whole]

/-- No byte belongs to two pieces. -/
theorem index_eq_of_overlaps {a b : Arrival cut} (h : a.fragment.Overlaps b.fragment) :
    a.index = b.index := by
  rcases Nat.lt_trichotomy a.index b.index with hlt | heq | hlt
  · exact absurd h.2 (Nat.not_lt.2 (stop_le_offset hlt))
  · exact Fin.ext heq
  · exact absurd h.1 (Nat.not_lt.2 (stop_le_offset hlt))

theorem index_eq_of_sameRange {a b : Arrival cut} (h : a.fragment.SameRange b.fragment) :
    a.index = b.index := by
  have hpos := a.length_pos
  obtain ⟨hoffset, hlength⟩ := h
  apply index_eq_of_overlaps
  unfold Fragment.Overlaps Fragment.stop
  omega

/-- Every byte belongs to a piece. -/
theorem exists_index_covering (cut : Cut datagram) {position : Nat}
    (h : position < datagram.length) :
    ∃ index, ∀ arrival : Arrival cut, arrival.index = index →
      arrival.fragment.Covers position := by
  rw [← cut.whole] at h
  obtain ⟨index, hstart, hstop⟩ := Cut.exists_index_of_flatten h
  refine ⟨index, ?_⟩
  rintro arrival rfl
  refine ⟨hstart, ?_⟩
  rw [stop_fragment]
  exact hstop

/-- The bytes of a piece are those of the datagram. -/
theorem byteAt?_fragment (arrival : Arrival cut) {position : Nat}
    (h : arrival.fragment.Covers position) :
    arrival.fragment.byteAt? position = datagram[position]? := by
  have hge : (cut.pieces.take arrival.index).flatten.length ≤ position := h.1
  have hlt : position < (cut.pieces.take arrival.index).flatten.length +
    cut.pieces[arrival.index].length := h.2
  calc arrival.fragment.byteAt? position
      = cut.pieces[arrival.index][position - (cut.pieces.take arrival.index).flatten.length]? := rfl
    _ = ((cut.pieces.take arrival.index).flatten ++ (cut.pieces[arrival.index] ++
          (cut.pieces.drop (arrival.index + 1)).flatten))[position]? := by
        rw [List.getElem?_append_right hge, List.getElem?_append_left (by omega)]
    _ = datagram[position]? := congrArg (·[position]?) (cut.split_at arrival.index)

end Arrival

/-- All pieces but the last have whole units of eight bytes. -/
def Cut.Aligned (cut : Cut datagram) : Prop := ∀ piece ∈ cut.pieces.dropLast, 8 ∣ piece.length

theorem Cut.Aligned.dvd_offset (h : cut.Aligned) (arrival : Arrival cut) :
    8 ∣ arrival.fragment.offset := by
  have hearlier : (cut.pieces.take arrival.index).Sublist cut.pieces.dropLast := by
    rw [List.dropLast_eq_take]
    have hindex := arrival.index.isLt
    exact List.take_sublist_take_left (by omega)
  change 8 ∣ (cut.pieces.take arrival.index).flatten.length
  rw [List.length_flatten]
  apply List.dvd_sum
  intro length hlength
  obtain ⟨piece, hpiece, rfl⟩ := List.mem_map.1 hlength
  exact h piece (hearlier.mem hpiece)

namespace FragmentSequence

variable {κ : Type}

/-- The sequence was offered the pieces that arrived, and nothing else. -/
structure Gathers (sequence : FragmentSequence κ) (config : AssemblyConfig)
    (arrivals : List (Arrival cut)) : Prop where
  collects : sequence.Collects config (arrivals.map Arrival.fragment)
  clear : sequence.ambiguous = false

section Gathers

variable {sequence : FragmentSequence κ} {config : AssemblyConfig} {arrivals : List (Arrival cut)}
  (h : sequence.Gathers config arrivals) (hretain : config.retainPayload = true)

include h hretain

theorem Gathers.arrived {fragment : Fragment} (hfragment : fragment ∈ sequence.fragments) :
    ∃ arrival ∈ arrivals, arrival.fragment = fragment := by
  obtain ⟨first, hfirst, hstored⟩ := h.collects.first_of_range fragment hfragment
  rw [AssemblyConfig.stored_of_retain hretain] at hstored
  obtain ⟨arrival, harrival, heq⟩ := List.mem_map.1 (List.mem_of_find?_eq_some hfirst)
  exact ⟨arrival, harrival, heq.trans hstored⟩

theorem Gathers.retained {arrival : Arrival cut} (harrival : arrival ∈ arrivals) :
    ∃ other : Arrival cut, other.index = arrival.index ∧
      other.fragment ∈ sequence.fragments := by
  obtain ⟨fragment, hfragment, hrange⟩ :=
    h.collects.range_retained arrival.fragment (List.mem_map_of_mem harrival)
  obtain ⟨other, _, rfl⟩ := h.arrived hretain hfragment
  exact ⟨other, Arrival.index_eq_of_sameRange hrange, hfragment⟩

theorem Gathers.total_eq {total : Nat} (htotal : sequence.totalLength = some total) :
    total = datagram.length := by
  obtain ⟨fragment, hfragment, hmore, hstop⟩ := h.collects.total_is_end total htotal
  obtain ⟨arrival, _, rfl⟩ := h.arrived hretain hfragment
  rw [← hstop, Arrival.stop_of_last hmore]

theorem Gathers.not_isOverlappedBy {arrival : Arrival cut}
    (hretains : sequence.retains arrival.fragment = false) :
    sequence.isOverlappedBy arrival.fragment = false := by
  simp only [isOverlappedBy, List.any_eq_false, decide_eq_true_eq]
  intro fragment hfragment hoverlaps
  obtain ⟨other, _, rfl⟩ := h.arrived hretain hfragment
  have hsame := Arrival.sameRange_of_index_eq (Arrival.index_eq_of_overlaps hoverlaps)
  rw [retains_iff.2 ⟨_, hfragment, hsame⟩] at hretains
  cases hretains

theorem Gathers.not_isContradictedBy (arrival : Arrival cut) :
    sequence.isContradictedBy arrival.fragment = false := by
  have hstop := arrival.stop_le
  rw [Bool.eq_false_iff]
  intro hcontradicted
  simp only [isContradictedBy, Bool.or_eq_true, Bool.and_eq_true, Bool.not_eq_true',
    Option.any_eq_true, bne_iff_ne, decide_eq_true_eq] at hcontradicted
  rcases hcontradicted with ⟨hmore, total, htotal, hne⟩ | ⟨total, htotal, hlt⟩
  · exact hne ((h.total_eq hretain htotal).trans (Arrival.stop_of_last hmore).symm)
  · rcases totalAfter_eq_some htotal with hknown | ⟨_, heq⟩
    · have heq := h.total_eq hretain hknown
      omega
    · omega

/-- A piece that was not retained adds to the others without any ambiguity. -/
theorem Gathers.extended {arrival : Arrival cut}
    (hretains : sequence.retains (config.stored arrival.fragment) = false) :
    (sequence.extended (config.stored arrival.fragment)).Gathers config
      (arrivals ++ [arrival]) where
  collects := by
    rw [List.map_append]
    exact h.collects.extended hretains
  clear := by
    rw [AssemblyConfig.stored_of_retain hretain] at hretains ⊢
    simp [FragmentSequence.extended, h.clear, h.not_isOverlappedBy hretain hretains,
      h.not_isContradictedBy hretain arrival]

/-- Whatever becomes of a piece, the sequence was offered it. -/
theorem Gathers.offered (arrival : Arrival cut) :
    (if sequence.retains (config.stored arrival.fragment) then sequence
      else sequence.extended (config.stored arrival.fragment)).Gathers config
        (arrivals ++ [arrival]) := by
  by_cases hretains : sequence.retains (config.stored arrival.fragment)
  · rw [if_pos hretains]
    refine ⟨?_, h.clear⟩
    rw [List.map_append]
    exact h.collects.duplicate hretains
  · rw [if_neg hretains]
    exact h.extended hretain (by simpa using hretains)

theorem Gathers.pairwise : sequence.fragments.Pairwise (fun a b => a.stop ≤ b.offset) := by
  refine (h.collects.sorted.and h.collects.distinct).imp_of_mem ?_
  rintro x y hx hy ⟨hle, hrange⟩
  obtain ⟨a, _, rfl⟩ := h.arrived hretain hx
  obtain ⟨b, _, rfl⟩ := h.arrived hretain hy
  rcases Nat.lt_trichotomy a.index b.index with hlt | heq | hlt
  · exact Arrival.stop_le_offset hlt
  · exact absurd (Arrival.sameRange_of_index_eq (Fin.ext heq)) hrange
  · have hpos := b.length_pos
    have hstop := Arrival.stop_le_offset hlt
    unfold Fragment.stop at hstop
    omega

theorem Gathers.tile (hall : ∀ index, index ∈ arrivals.map Arrival.index) :
    Fragment.Tile 0 datagram.length sequence.fragments := by
  refine Fragment.tile_of_covered (Nat.zero_le _) (h.pairwise hretain) ?_ ?_
  · intro fragment hfragment
    obtain ⟨arrival, _, rfl⟩ := h.arrived hretain hfragment
    exact ⟨Nat.zero_le _, arrival.stop_le⟩
  · intro position _ hposition
    obtain ⟨index, hindex⟩ := Arrival.exists_index_covering cut hposition
    obtain ⟨arrival, harrival, rfl⟩ := List.mem_map.1 (hall index)
    obtain ⟨other, hother, hretained⟩ := h.retained hretain harrival
    exact ⟨other.fragment, hretained, hindex other hother⟩

theorem Gathers.totalLength_eq (hdatagram : datagram ≠ [])
    (hall : ∀ index, index ∈ arrivals.map Arrival.index) :
    sequence.totalLength = some datagram.length := by
  have hpieces : 0 < cut.pieces.length := by
    rw [List.length_pos_iff]
    rintro hnil
    exact hdatagram (by rw [← cut.whole, hnil, List.flatten_nil])
  obtain ⟨arrival, harrival, hindex⟩ :=
    List.mem_map.1 (hall ⟨cut.pieces.length - 1, Nat.sub_lt hpieces Nat.zero_lt_one⟩)
  obtain ⟨other, hother, hretained⟩ := h.retained hretain harrival
  have hmore : other.fragment.more = false := by
    rw [hindex] at hother
    simp only [Arrival.fragment, Fragment.ofPayload, hother, decide_eq_false_iff_not]
    omega
  obtain ⟨total, htotal⟩ := Option.isSome_iff_exists.1 (h.collects.total_known _ hretained hmore)
  rw [htotal, h.total_eq hretain htotal]

theorem Gathers.isCovered_iff (hdatagram : datagram ≠ []) :
    sequence.IsCovered ↔ ∀ index, index ∈ arrivals.map Arrival.index := by
  constructor
  · rintro ⟨_, total, htotal, htile⟩ index
    rw [h.total_eq hretain htotal] at htile
    let piece : Arrival cut := ⟨index, .zero⟩
    have hpos := piece.length_pos
    have hstop := piece.stop_le
    unfold Fragment.stop at hstop
    obtain ⟨fragment, hfragment, hcovers⟩ :=
      htile.exists_covering (Nat.zero_le piece.fragment.offset) (by omega)
    obtain ⟨arrival, harrival, rfl⟩ := h.arrived hretain hfragment
    have hoverlaps : arrival.fragment.Overlaps piece.fragment :=
      ⟨Nat.lt_of_le_of_lt hcovers.1 (Nat.lt_add_of_pos_right hpos), hcovers.2⟩
    exact List.mem_map.2 ⟨arrival, harrival, Arrival.index_eq_of_overlaps hoverlaps⟩
  · intro hall
    exact ⟨h.clear, datagram.length, h.totalLength_eq hretain hdatagram hall,
      h.tile hretain hall⟩

theorem Gathers.joined (hcovered : sequence.IsCovered) :
    Fragment.joined? sequence.fragments = some datagram := by
  obtain ⟨_, total, htotal, htile⟩ := hcovered
  rw [h.total_eq hretain htotal] at htile
  have hbytes : ∀ fragment ∈ sequence.fragments, fragment.HasBytes := by
    intro fragment hfragment
    obtain ⟨arrival, _, rfl⟩ := h.arrived hretain hfragment
    exact arrival.hasBytes_fragment
  obtain ⟨bytes, hjoined, hlength, hbyte⟩ := htile.joined hbytes
  have heq : bytes = datagram := by
    refine List.ext_getElem? ?_
    intro position
    by_cases hposition : position < datagram.length
    · obtain ⟨fragment, hfragment, hcovers⟩ :=
        htile.exists_covering (Nat.zero_le position) hposition
      obtain ⟨arrival, _, rfl⟩ := h.arrived hretain hfragment
      rw [← arrival.byteAt?_fragment hcovers, ← hbyte _ hfragment position hcovers, Nat.sub_zero]
    · rw [List.getElem?_eq_none (by omega), List.getElem?_eq_none (by omega)]
  rw [hjoined, heq]

end Gathers

end FragmentSequence

end Dissection
