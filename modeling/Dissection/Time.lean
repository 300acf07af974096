/-!
# Capture time

Every clock in the library is driven by the timestamps of captured packets, so a capture file
gives the same answers whenever it is read. A timestamp is a 64-bit count of microseconds and
saturates; a duration counts nanoseconds and has no limit.
-/

namespace Dissection

structure Duration where
  nanos : Nat
  deriving DecidableEq

namespace Duration

def ofParts (seconds nanos : Nat) : Duration := ⟨seconds * 1000000000 + nanos⟩

def ofSeconds (seconds : Nat) : Duration := ofParts seconds 0

def ofMicros (micros : Nat) : Duration := ⟨micros * 1000⟩

def seconds (duration : Duration) : Nat := duration.nanos / 1000000000

def subsecondNanos (duration : Duration) : Nat := duration.nanos % 1000000000

def micros (duration : Duration) : Nat := duration.nanos / 1000

end Duration

/-- Microseconds since the epoch, in 64 bits. -/
structure Timestamp where
  micros : Nat
  micros_lt : micros < UInt64.size
  deriving DecidableEq

namespace Timestamp

theorem ext {a b : Timestamp} (h : a.micros = b.micros) : a = b := by
  cases a
  cases b
  simpa using h

instance : LE Timestamp := ⟨fun a b => a.micros ≤ b.micros⟩
instance : LT Timestamp := ⟨fun a b => a.micros < b.micros⟩
instance (a b : Timestamp) : Decidable (a ≤ b) := inferInstanceAs (Decidable (a.micros ≤ b.micros))
instance (a b : Timestamp) : Decidable (a < b) := inferInstanceAs (Decidable (a.micros < b.micros))
instance : Max Timestamp := ⟨fun a b => if a ≤ b then b else a⟩

theorem le_def {a b : Timestamp} : a ≤ b ↔ a.micros ≤ b.micros := Iff.rfl

theorem lt_def {a b : Timestamp} : a < b ↔ a.micros < b.micros := Iff.rfl

@[simp] theorem micros_max (a b : Timestamp) : (max a b).micros = max a.micros b.micros := by
  change (if a ≤ b then b else a).micros = _
  by_cases h : a ≤ b
  · rw [if_pos h]
    exact (Nat.max_eq_right h).symm
  · rw [if_neg h]
    exact (Nat.max_eq_left (Nat.le_of_not_le h)).symm

theorem le_max_left (a b : Timestamp) : a ≤ max a b := by
  rw [le_def, micros_max]
  exact Nat.le_max_left _ _

theorem le_max_right (a b : Timestamp) : b ≤ max a b := by
  rw [le_def, micros_max]
  exact Nat.le_max_right _ _

theorem max_le {a b bound : Timestamp} (ha : a ≤ bound) (hb : b ≤ bound) : max a b ≤ bound := by
  rw [le_def, micros_max]
  exact Nat.max_le_of_le_of_le ha hb

theorem max_eq_right {a b : Timestamp} (h : a ≤ b) : max a b = b := if_pos h

@[simp] theorem max_self (a : Timestamp) : max a a = a := if_pos (Nat.le_refl _)

theorem max_eq_or (a b : Timestamp) : max a b = a ∨ max a b = b := by
  change (if a ≤ b then b else a) = a ∨ (if a ≤ b then b else a) = b
  split
  · exact .inr rfl
  · exact .inl rfl

/-- The timestamp of a count of microseconds, the largest one when the count is too large. -/
def saturating (micros : Nat) : Timestamp :=
  ⟨min micros (UInt64.size - 1), Nat.lt_of_le_of_lt (Nat.min_le_right _ _) (by decide)⟩

@[simp] theorem micros_saturating (micros : Nat) :
    (saturating micros).micros = min micros (UInt64.size - 1) := rfl

def zero : Timestamp := saturating 0

def ofMillis (millis : Nat) : Timestamp := saturating (millis * 1000)

def ofSeconds (seconds : Nat) : Timestamp := saturating (seconds * 1000000)

/-- The timestamp of a capture header, which gives seconds and microseconds apart. -/
def ofParts (seconds micros : Nat) : Timestamp := saturating (seconds * 1000000 + micros)

/-- The time `duration` later. The duration stops at the largest count of microseconds, and so does
the sum. -/
def after (time : Timestamp) (duration : Duration) : Timestamp :=
  saturating (time.micros + min duration.micros (UInt64.size - 1))

/-- It makes no difference that the duration stops before the sum does. -/
theorem micros_after (time : Timestamp) (duration : Duration) :
    (time.after duration).micros = min (time.micros + duration.micros) (UInt64.size - 1) := by
  rw [after, micros_saturating]
  omega

/-- The time passed since `earlier`, zero when it is not earlier. -/
def since (time earlier : Timestamp) : Duration := .ofMicros (time.micros - earlier.micros)

/-- Seconds, a point, and six digits of microseconds. -/
def text (time : Timestamp) : String :=
  let fraction := toString (time.micros % 1000000)
  s!"{time.micros / 1000000}." ++ "".pushn '0' (6 - fraction.length) ++ fraction

end Timestamp

/-- Something last seen at `last` has been idle for longer than `limit`. -/
def isExpired (now last : Timestamp) (limit : Duration) : Bool :=
  decide (limit.nanos < (now.since last).nanos)

theorem isExpired_iff {now last : Timestamp} {limit : Duration} :
    isExpired now last limit ↔ limit.nanos < (now.micros - last.micros) * 1000 := by
  rw [isExpired, decide_eq_true_iff]
  rfl

theorem isExpired_eq_false_iff {now last : Timestamp} {limit : Duration} :
    isExpired now last limit = false ↔ (now.since last).nanos ≤ limit.nanos := by
  rw [isExpired, decide_eq_false_iff_not, Nat.not_lt]

/-- The largest timestamp observed so far. -/
structure Clock where
  now : Timestamp := .zero
  deriving DecidableEq

namespace Clock

def isMovedBy (clock : Clock) (time : Timestamp) : Bool := decide (clock.now < time)

/-- Observes a timestamp; an earlier one leaves the clock where it is. -/
def observe (clock : Clock) (time : Timestamp) : Clock := ⟨max clock.now time⟩

@[simp] theorem now_observe (clock : Clock) (time : Timestamp) :
    (clock.observe time).now = max clock.now time := rfl

end Clock

end Dissection
