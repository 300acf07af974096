import Dissection.Time

/-!
# Idle order

Things that time out are kept in a list, the one idle for longest first. Of two that were last
active at the same time, the one opened first comes first. Expiry then takes things from the front
of the list alone.
-/

namespace Dissection

/-- What can be idle: it was last active at some time and has a serial number of its own. -/
class Idle (α : Type) where
  lastActive : α → Timestamp
  serial : α → Nat

namespace Idle

variable {α : Type} [Idle α]

/-- The thing `a` has been idle for longer than `b`, or as long and was opened earlier. -/
def Before (a b : α) : Prop :=
  lastActive a < lastActive b ∨ lastActive a = lastActive b ∧ serial a < serial b

instance (a b : α) : Decidable (Before a b) :=
  inferInstanceAs (Decidable (_ ∨ _))

def place (thing : α) : List α → List α
  | [] => [thing]
  | other :: rest =>
    if Before thing other then thing :: other :: rest else other :: place thing rest

theorem mem_place {thing x : α} {queue : List α} :
    x ∈ place thing queue ↔ x = thing ∨ x ∈ queue := by
  induction queue with
  | nil => simp [place]
  | cons other rest ih =>
    by_cases h : Before thing other
    · simp [place, h]
    · simp only [place, h, if_false, List.mem_cons, ih]
      exact or_left_comm

def isOverdue (now : Timestamp) (limit : Duration) (thing : α) : Bool :=
  isExpired now (lastActive thing) limit

/-- The front of the queue that is overdue. -/
def overdue (now : Timestamp) (limit : Duration) (queue : List α) : List α :=
  queue.takeWhile (isOverdue now limit)

def current (now : Timestamp) (limit : Duration) (queue : List α) : List α :=
  queue.dropWhile (isOverdue now limit)

theorem overdue_append_current (now : Timestamp) (limit : Duration) (queue : List α) :
    overdue now limit queue ++ current now limit queue = queue := List.takeWhile_append_dropWhile

end Idle

end Dissection
