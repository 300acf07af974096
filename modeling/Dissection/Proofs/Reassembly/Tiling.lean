import Dissection.Reassembly.Fragment
import Mathlib.Data.List.Chain

/-!
# Tilings

Fragments tile a stretch of a datagram when each begins where the one before it ends. A tiling
covers every byte of its stretch exactly once, and fragments in order that cover every byte and
share none are a tiling. The bytes of the fragments, one behind the other, are those of the
stretch.
-/

namespace Dissection.Fragment

def Covers (fragment : Fragment) (position : Nat) : Prop :=
  fragment.offset ≤ position ∧ position < fragment.stop

instance (fragment : Fragment) (position : Nat) : Decidable (fragment.Covers position) :=
  inferInstanceAs (Decidable (_ ∧ _))

theorem SameRange.covers_iff {a b : Fragment} (h : a.SameRange b) (position : Nat) :
    a.Covers position ↔ b.Covers position := by
  unfold Covers stop
  rw [h.1, h.2]

theorem perm_place (fragment : Fragment) (fragments : List Fragment) :
    (place fragment fragments).Perm (fragment :: fragments) := by
  induction fragments with
  | nil => exact .refl _
  | cons other rest ih =>
    by_cases h : fragment.offset < other.offset
    · rw [place, if_pos h]
    · rw [place, if_neg h]
      exact (ih.cons other).trans (.swap fragment other rest)

/-- Placing a fragment keeps fragments in the order of their offsets. -/
theorem pairwise_place {fragment : Fragment} {fragments : List Fragment}
    (h : fragments.Pairwise (fun a b => a.offset ≤ b.offset)) :
    (place fragment fragments).Pairwise (fun a b => a.offset ≤ b.offset) := by
  induction fragments with
  | nil => simp [place]
  | cons other rest ih =>
    obtain ⟨hother, hrest⟩ := List.pairwise_cons.1 h
    by_cases hlt : fragment.offset < other.offset
    · rw [place, if_pos hlt]
      refine List.pairwise_cons.2 ⟨?_, h⟩
      intro x hx
      rcases List.mem_cons.1 hx with rfl | hx
      · exact Nat.le_of_lt hlt
      · exact Nat.le_trans (Nat.le_of_lt hlt) (hother x hx)
    · rw [place, if_neg hlt]
      refine List.pairwise_cons.2 ⟨?_, ih hrest⟩
      intro x hx
      rcases mem_place.1 hx with rfl | hx
      · exact Nat.le_of_not_lt hlt
      · exact hother x hx

theorem Tile.le {start stop : Nat} {fragments : List Fragment} (h : Tile start stop fragments) :
    start ≤ stop := by
  induction fragments generalizing start with
  | nil => exact Nat.le_of_eq h
  | cons fragment rest ih =>
    have hrest := ih h.2
    have hoffset := h.1
    unfold Fragment.stop at hrest
    omega

theorem Tile.head_offset {start stop : Nat} {fragments : List Fragment}
    (h : Tile start stop fragments) (hne : fragments ≠ []) :
    fragments.head?.map Fragment.offset = some start := by
  cases fragments with
  | nil => exact absurd rfl hne
  | cons first rest => simp [h.1]

theorem Tile.last_stop {start stop : Nat} {fragments : List Fragment}
    (h : Tile start stop fragments) (hne : fragments ≠ []) :
    fragments.getLast?.map Fragment.stop = some stop := by
  induction fragments generalizing start with
  | nil => exact absurd rfl hne
  | cons first rest ih =>
    cases rest with
    | nil =>
      have hstop : first.stop = stop := h.2
      simp [hstop]
    | cons second rest =>
      rw [List.getLast?_cons_cons]
      exact ih h.2 (List.cons_ne_nil _ _)

theorem Tile.isChain {start stop : Nat} {fragments : List Fragment}
    (h : Tile start stop fragments) : fragments.IsChain (fun a b => b.offset = a.stop) := by
  induction fragments generalizing start with
  | nil => exact .nil
  | cons first rest ih =>
    cases rest with
    | nil => exact .singleton first
    | cons second rest => exact .cons_cons h.2.1 (ih h.2)

theorem Tile.start_le {start stop : Nat} {fragments : List Fragment}
    (h : Tile start stop fragments) : ∀ fragment ∈ fragments, start ≤ fragment.offset := by
  induction fragments generalizing start with
  | nil => simp
  | cons first rest ih =>
    have hoffset := h.1
    intro fragment hfragment
    rcases List.mem_cons.1 hfragment with rfl | hmem
    · exact Nat.le_of_eq hoffset.symm
    · have hrest := ih h.2 fragment hmem
      unfold Fragment.stop at hrest
      omega

theorem Tile.stop_le {start stop : Nat} {fragments : List Fragment}
    (h : Tile start stop fragments) : ∀ fragment ∈ fragments, fragment.stop ≤ stop := by
  induction fragments generalizing start with
  | nil => simp
  | cons first rest ih =>
    intro fragment hfragment
    rcases List.mem_cons.1 hfragment with rfl | hmem
    · exact h.2.le
    · exact ih h.2 fragment hmem

/-- No fragment of a tiling begins before another one ends. -/
theorem Tile.pairwise {start stop : Nat} {fragments : List Fragment}
    (h : Tile start stop fragments) : fragments.Pairwise (fun a b => a.stop ≤ b.offset) := by
  induction fragments generalizing start with
  | nil => exact .nil
  | cons first rest ih => exact List.pairwise_cons.2 ⟨h.2.start_le, ih h.2⟩

theorem Tile.exists_covering {start stop position : Nat} {fragments : List Fragment}
    (h : Tile start stop fragments) (hstart : start ≤ position) (hstop : position < stop) :
    ∃ fragment ∈ fragments, fragment.Covers position := by
  induction fragments generalizing start with
  | nil =>
    have hempty : start = stop := h
    omega
  | cons first rest ih =>
    have hoffset := h.1
    by_cases hcovers : position < first.stop
    · refine ⟨first, List.mem_cons_self, ?_, hcovers⟩
      omega
    · obtain ⟨fragment, hmem, hfragment⟩ := ih h.2 (Nat.le_of_not_lt hcovers)
      exact ⟨fragment, List.mem_cons_of_mem _ hmem, hfragment⟩

/-- Two fragments of a tiling that share a byte are the same. -/
theorem Tile.eq_of_shared {start stop position : Nat} {fragments : List Fragment}
    (h : Tile start stop fragments) {a b : Fragment} (ha : a ∈ fragments) (hb : b ∈ fragments)
    (hacovers : a.Covers position) (hbcovers : b.Covers position) : a = b := by
  have hshared : fragments.Pairwise
      (fun x y => x.Covers position → y.Covers position → x = y) := by
    refine h.pairwise.imp ?_
    intro x y hle hx hy
    have hxstop := hx.2
    have hyoffset := hy.1
    omega
  have hflip : fragments.Pairwise
      (flip (fun x y => x.Covers position → y.Covers position → x = y)) :=
    hshared.imp (fun hxy hy hx => (hxy hx hy).symm)
  exact List.Pairwise.forall_of_forall_of_flip (fun x _ _ _ => rfl) hshared hflip ha hb
    hacovers hbcovers

/-- Fragments in order that cover every byte of a stretch once are a tiling. -/
theorem tile_of_covered {start stop : Nat} {fragments : List Fragment} (hle : start ≤ stop)
    (hordered : fragments.Pairwise (fun a b => a.stop ≤ b.offset))
    (hinside : ∀ fragment ∈ fragments, start ≤ fragment.offset ∧ fragment.stop ≤ stop)
    (hcovered : ∀ position, start ≤ position → position < stop →
      ∃ fragment ∈ fragments, fragment.Covers position) : Tile start stop fragments := by
  induction fragments generalizing start with
  | nil =>
    by_cases hlt : start < stop
    · obtain ⟨fragment, hmem, _⟩ := hcovered start (Nat.le_refl _) hlt
      cases hmem
    · exact Nat.le_antisymm hle (Nat.le_of_not_lt hlt)
  | cons first rest ih =>
    obtain ⟨hfirst, hrest⟩ := List.pairwise_cons.1 hordered
    obtain ⟨hstart, hstop⟩ := hinside first List.mem_cons_self
    have hends : first.offset ≤ first.stop := Nat.le_add_right _ _
    -- the byte at `start` belongs to the first fragment, as all others begin behind it
    have hoffset : first.offset = start := by
      refine Nat.le_antisymm (Nat.le_of_not_lt ?_) hstart
      intro hgap
      obtain ⟨fragment, hmem, hcovers⟩ := hcovered start (Nat.le_refl _) (by omega)
      have hbefore := hcovers.1
      rcases List.mem_cons.1 hmem with rfl | hmem
      · omega
      · have hbehind := hfirst fragment hmem
        omega
    refine ⟨hoffset, ih hstop hrest ?_ ?_⟩
    · intro x hx
      exact ⟨hfirst x hx, (hinside x (List.mem_cons_of_mem _ hx)).2⟩
    · intro position hge hposition
      obtain ⟨fragment, hmem, hcovers⟩ := hcovered position (by omega) hposition
      rcases List.mem_cons.1 hmem with rfl | hmem
      · exact absurd hge (Nat.not_le.2 hcovers.2)
      · exact ⟨fragment, hmem, hcovers⟩

/-- The bytes of the fragment are known, as many as it is long. -/
def HasBytes (fragment : Fragment) : Prop :=
  ∃ payload, fragment.payload = some payload ∧ payload.length = fragment.length

/-- The byte that the fragment holds at a position of the datagram. -/
def byteAt? (fragment : Fragment) (position : Nat) : Option UInt8 :=
  fragment.payload.bind (·[position - fragment.offset]?)

def joined? (fragments : List Fragment) : Option Bytes :=
  (fragments.mapM Fragment.payload).map List.flatten

theorem joined?_cons {fragment : Fragment} {rest : List Fragment} {payload bytes : Bytes}
    (hpayload : fragment.payload = some payload) (hrest : joined? rest = some bytes) :
    joined? (fragment :: rest) = some (payload ++ bytes) := by
  obtain ⟨payloads, hpayloads, rfl⟩ := Option.map_eq_some_iff.1 hrest
  simp [joined?, hpayload, hpayloads]

/-- The bytes of a tiling are the bytes of its stretch, each from the fragment that covers it. -/
theorem Tile.joined {start stop : Nat} {fragments : List Fragment} (h : Tile start stop fragments)
    (hbytes : ∀ fragment ∈ fragments, fragment.HasBytes) :
    ∃ bytes, joined? fragments = some bytes ∧ bytes.length = stop - start ∧
      ∀ fragment ∈ fragments, ∀ position, fragment.Covers position →
        bytes[position - start]? = fragment.byteAt? position := by
  induction fragments generalizing start with
  | nil =>
    have hempty : start = stop := h
    exact ⟨[], rfl, by simp [hempty], by simp⟩
  | cons first rest ih =>
    obtain ⟨payload, hpayload, hlength⟩ := hbytes first List.mem_cons_self
    obtain ⟨bytes, hjoined, hrestlength, hrest⟩ :=
      ih h.2 (fun x hx => hbytes x (List.mem_cons_of_mem _ hx))
    have hoffset := h.1
    have hle := h.2.le
    have hstop : first.stop = start + payload.length := by
      rw [hlength, ← hoffset]
      rfl
    refine ⟨payload ++ bytes, joined?_cons hpayload hjoined, ?_, ?_⟩
    · rw [List.length_append, hrestlength]
      omega
    · intro fragment hfragment position hcovers
      rcases List.mem_cons.1 hfragment with rfl | hmem
      · have hin := hcovers.2
        have hge := hcovers.1
        rw [List.getElem?_append_left (by omega), byteAt?, hpayload, hoffset]
        rfl
      · have hbehind := h.2.start_le fragment hmem
        have hge := hcovers.1
        rw [List.getElem?_append_right (by omega), ← hrest fragment hmem position hcovers]
        congr 1
        omega

end Dissection.Fragment
