import Dissection.Proofs.Reassembly.Indexed.Operation

/-!
# Runs of an indexed assembler

The same requests can be made to an indexed assembler as to the plain one. After every run it stands
for what the run made of the plain one, and its calls returned the same events; so whatever holds of
all runs of the one can be looked up in the other.
-/

namespace Dissection

namespace IndexedAssembler

open Assembler (inOrder_after inOrder_ofConfig regular_ofConfig)

variable {κ : Type}

def ofConfig (config : AssemblyConfig) : IndexedAssembler κ := { config := config }

variable [DecidableEq κ]

def apply (indexed : IndexedAssembler κ) :
    AssemblyOperation κ → IndexedAssembler κ × List (AssemblyEvent κ)
  | .insert key fragment => indexed.insert key fragment
  | .advance time => indexed.advance time
  | .flush => indexed.flush

def after (indexed : IndexedAssembler κ) : List (AssemblyOperation κ) → IndexedAssembler κ
  | [] => indexed
  | operation :: rest => (indexed.apply operation).1.after rest

def calls (indexed : IndexedAssembler κ) : List (AssemblyOperation κ) → List (AssemblyCall κ)
  | [] => []
  | operation :: rest =>
    ⟨operation, (indexed.apply operation).2⟩ :: (indexed.apply operation).1.calls rest

theorem represents_ofConfig (config : AssemblyConfig) :
    (ofConfig config : IndexedAssembler κ).Represents (.ofConfig config) where
  config_eq := rfl
  clock_eq := rfl
  opened_eq := rfl
  stats_eq := rfl
  sequences_perm := .nil
  closed_iff key time := by simp [ofConfig, Assembler.ofConfig, KeyTable.find?]
  queued _ h := nomatch h
  queue_sorted := .nil
  queue_le _ h := nomatch h
  index_eq := rfl

variable {indexed : IndexedAssembler κ} {assembler : Assembler κ}

theorem Represents.apply (h : indexed.Represents assembler) (hregular : assembler.Regular)
    (horder : assembler.InOrder) (operation : AssemblyOperation κ) :
    RepresentsResult (indexed.apply operation) (assembler.apply operation) := by
  cases operation with
  | insert key fragment => exact h.insert hregular horder key fragment
  | advance time => exact h.advance hregular horder time
  | flush => exact h.flush horder

theorem Represents.run (h : indexed.Represents assembler) (hregular : assembler.Regular)
    (horder : assembler.InOrder) (operations : List (AssemblyOperation κ)) :
    (indexed.after operations).Represents (assembler.after operations) ∧
      indexed.calls operations = assembler.calls operations := by
  induction operations generalizing indexed assembler with
  | nil => exact ⟨h, rfl⟩
  | cons operation rest ih =>
    have hstep := h.apply hregular horder operation
    obtain ⟨hafter, hcalls⟩ := ih hstep.assembler (hregular.apply operation)
      (horder.apply operation)
    refine ⟨hafter, ?_⟩
    rw [calls, Assembler.calls, hstep.events, hcalls]

section Run

variable (config : AssemblyConfig) (operations : List (AssemblyOperation κ))

theorem represents_after :
    ((ofConfig config).after operations).Represents
      ((Assembler.ofConfig config).after operations) :=
  ((represents_ofConfig config).run (regular_ofConfig config) (inOrder_ofConfig config)
    operations).1

theorem calls_eq :
    (ofConfig config).calls operations = (Assembler.ofConfig config).calls operations :=
  ((represents_ofConfig config).run (regular_ofConfig config) (inOrder_ofConfig config)
    operations).2

end Run

end IndexedAssembler

end Dissection
