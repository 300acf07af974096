import Dissection.Proofs.Reassembly.Operation
import Mathlib.Data.List.Induction

/-!
# Runs of an assembler

A run is a list of operations on an assembler that starts without sequences; every call of an
operation returns events. What one operation keeps, of the assembler and of the calls so far, holds
after every run.
-/

namespace Dissection

inductive AssemblyOperation (κ : Type) where
  | insert (key : κ) (fragment : Fragment)
  | advance (time : Timestamp)
  | flush

/-- A request together with the events that it returned. -/
structure AssemblyCall (κ : Type) where
  operation : AssemblyOperation κ
  events : List (AssemblyEvent κ)

namespace Assembler

variable {κ : Type}

def ofConfig (config : AssemblyConfig) : Assembler κ := { config := config }

theorem distinctKeys_ofConfig (config : AssemblyConfig) :
    (ofConfig config : Assembler κ).DistinctKeys := .nil

variable [DecidableEq κ]

def apply (assembler : Assembler κ) : AssemblyOperation κ → Assembler κ × List (AssemblyEvent κ)
  | .insert key fragment => assembler.insert key fragment
  | .advance time => assembler.advance time
  | .flush => assembler.flush

def after (assembler : Assembler κ) : List (AssemblyOperation κ) → Assembler κ
  | [] => assembler
  | operation :: rest => (assembler.apply operation).1.after rest

def calls (assembler : Assembler κ) : List (AssemblyOperation κ) → List (AssemblyCall κ)
  | [] => []
  | operation :: rest =>
    ⟨operation, (assembler.apply operation).2⟩ :: (assembler.apply operation).1.calls rest

theorem after_append (assembler : Assembler κ) (operations more : List (AssemblyOperation κ)) :
    assembler.after (operations ++ more) = (assembler.after operations).after more := by
  induction operations generalizing assembler with
  | nil => rfl
  | cons operation rest ih => exact ih (assembler.apply operation).1

theorem calls_append (assembler : Assembler κ) (operations more : List (AssemblyOperation κ)) :
    assembler.calls (operations ++ more) =
      assembler.calls operations ++ (assembler.after operations).calls more := by
  induction operations generalizing assembler with
  | nil => rfl
  | cons operation rest ih =>
    simp only [List.cons_append, calls, after]
    rw [ih]

theorem after_concat (assembler : Assembler κ) (operations : List (AssemblyOperation κ))
    (last : AssemblyOperation κ) :
    assembler.after (operations ++ [last]) = ((assembler.after operations).apply last).1 :=
  after_append assembler operations [last]

theorem calls_concat (assembler : Assembler κ) (operations : List (AssemblyOperation κ))
    (last : AssemblyOperation κ) :
    assembler.calls (operations ++ [last]) =
      assembler.calls operations ++ [⟨last, ((assembler.after operations).apply last).2⟩] :=
  calls_append assembler operations [last]

theorem operations_calls (assembler : Assembler κ) (operations : List (AssemblyOperation κ)) :
    (assembler.calls operations).map AssemblyCall.operation = operations := by
  induction operations generalizing assembler with
  | nil => rfl
  | cons operation rest ih => exact congrArg _ (ih (assembler.apply operation).1)

@[simp] theorem config_apply (assembler : Assembler κ) (operation : AssemblyOperation κ) :
    (assembler.apply operation).1.config = assembler.config := by
  cases operation with
  | insert key fragment => exact config_insert assembler key fragment
  | advance time => rfl
  | flush => rfl

/-- What one operation keeps, of the assembler and of the calls so far, holds after every run. -/
theorem run_induction {motive : Assembler κ → List (AssemblyCall κ) → Prop}
    (assembler : Assembler κ) (start : motive assembler [])
    (step : ∀ current calls operation, motive current calls →
      motive (current.apply operation).1
        (calls ++ [⟨operation, (current.apply operation).2⟩]))
    (operations : List (AssemblyOperation κ)) :
    motive (assembler.after operations) (assembler.calls operations) := by
  induction operations using List.reverseRecOn with
  | nil => exact start
  | append_singleton operations last ih =>
    rw [after_concat, calls_concat]
    exact step _ _ last ih

theorem config_after (assembler : Assembler κ) (operations : List (AssemblyOperation κ)) :
    (assembler.after operations).config = assembler.config :=
  run_induction (motive := fun current _ => current.config = assembler.config) assembler rfl
    (fun current _ operation h => (config_apply current operation).trans h) operations

theorem DistinctKeys.apply {assembler : Assembler κ} (h : assembler.DistinctKeys)
    (operation : AssemblyOperation κ) : (assembler.apply operation).1.DistinctKeys := by
  cases operation with
  | insert key fragment =>
    exact (h.ready key fragment.timestamp).addFragment
      (assembler.get?_ready key fragment.timestamp) _
  | advance time => exact h.sublist (assembler.sequences_advance_sublist time)
  | flush => exact .nil

theorem distinctKeys_after (config : AssemblyConfig) (operations : List (AssemblyOperation κ)) :
    ((ofConfig config).after operations).DistinctKeys :=
  run_induction (motive := fun current _ => current.DistinctKeys) (ofConfig config)
    (distinctKeys_ofConfig config)
    (fun _ _ operation h => h.apply operation) operations

def Reachable (assembler : Assembler κ) : Prop :=
  ∃ config operations, assembler = (ofConfig config).after operations

theorem Reachable.distinctKeys {assembler : Assembler κ} (h : assembler.Reachable) :
    assembler.DistinctKeys := by
  obtain ⟨config, operations, rfl⟩ := h
  exact distinctKeys_after config operations

end Assembler

end Dissection
