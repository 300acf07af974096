/-!
# Tables by key

A table holds one value at most under each key. The order of its entries means nothing: a table is
known by what is found in it.
-/

namespace Dissection

structure KeyTable (κ ν : Type) where
  entries : List (κ × ν) := []
  distinct : entries.Pairwise (fun a b => a.1 ≠ b.1) := by exact .nil

namespace KeyTable

variable {κ ν : Type}

def size (table : KeyTable κ ν) : Nat := table.entries.length

def values (table : KeyTable κ ν) : List ν := table.entries.map Prod.snd

variable [DecidableEq κ]

def find? (table : KeyTable κ ν) (key : κ) : Option ν :=
  (table.entries.find? (fun entry => entry.1 = key)).map Prod.snd

def erase (table : KeyTable κ ν) (key : κ) : KeyTable κ ν where
  entries := table.entries.filter (fun entry => entry.1 ≠ key)
  distinct := table.distinct.filter _

def insert (table : KeyTable κ ν) (key : κ) (value : ν) : KeyTable κ ν where
  entries := (key, value) :: (table.erase key).entries
  distinct := by
    refine List.pairwise_cons.2 ⟨?_, (table.erase key).distinct⟩
    intro entry hentry
    simpa using Ne.symm (of_decide_eq_true (List.mem_filter.1 hentry).2)

theorem find?_eq_some_iff {table : KeyTable κ ν} {key : κ} {value : ν} :
    table.find? key = some value ↔ (key, value) ∈ table.entries := by
  obtain ⟨entries, hdistinct⟩ := table
  unfold find?
  induction entries with
  | nil => simp
  | cons entry rest ih =>
    obtain ⟨hentry, hrest⟩ := List.pairwise_cons.1 hdistinct
    by_cases hkey : entry.1 = key
    · have hother : (key, value) ∉ rest := fun hmem => hentry _ hmem hkey
      simp [hkey, hother, Prod.ext_iff, eq_comm]
    · rw [List.find?_cons_of_neg (by simpa using hkey), List.mem_cons, ih hrest]
      refine (or_iff_right ?_).symm
      rintro rfl
      exact hkey rfl

@[simp] theorem find?_erase (table : KeyTable κ ν) (key other : κ) :
    (table.erase key).find? other = if other = key then none else table.find? other := by
  ext value
  by_cases h : other = key
  · simp [find?_eq_some_iff, erase, h]
  · simp [find?_eq_some_iff, erase, h]

@[simp] theorem find?_insert (table : KeyTable κ ν) (key other : κ) (value : ν) :
    (table.insert key value).find? other =
      if other = key then some value else table.find? other := by
  ext found
  rw [find?_eq_some_iff]
  by_cases h : other = key
  · simp [insert, erase, h, eq_comm]
  · simp [insert, erase, h, find?_eq_some_iff]

end KeyTable

end Dissection
