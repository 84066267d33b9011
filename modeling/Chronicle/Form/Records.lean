import Chronicle.Form
import Chronicle.World

/-!
# The forms of the records

The settings of a world, the record of a variable, the antecedent of a latch and the two reports,
each filled from its fields.
-/

namespace Chronicle

open Form (field integer positive truth optional text list table choice)

def Settings.ofFields (fields : List (String × Datum)) : Except (List Complaint) Settings :=
  Checked.run <| Settings.mk
    <$> field fields "start_time" integer (some Settings.standard.startTime)
    <*> field fields "observe_on_write" truth (some Settings.standard.observeOnWrite)
    <*> field fields "reconcile_irreversible_writes" truth (some Settings.standard.reconcileWrites)
    <*> field fields "max_log_entries" positive (some Settings.standard.maxLogEntries)

def Record.ofFields (fields : List (String × Datum)) : Except (List Complaint) Record :=
  Checked.run <| Record.mk
    <$> field fields "modified_since_start" truth (some false)
    <*> field fields "modified_since_observed" truth (some false)
    <*> field fields "start_value" (optional truth) (some none)
    <*> field fields "start_override" (optional truth) (some none)
    <*> field fields "current_value" (optional truth) (some none)
    <*> field fields "observed_value" (optional truth) (some none)

def Antecedent.ofFields (fields : List (String × Datum)) : Except (List Complaint) Antecedent :=
  Checked.run <| Antecedent.mk
    <$> field fields "trigger" text none
    <*> field fields "recorded" (table truth) (some .empty)
    <*> field fields "unrecorded" (list text) (some [])

def TravelReport.ofFields (fields : List (String × Datum)) : Except (List Complaint) TravelReport :=
  Checked.run <| TravelReport.mk
    <$> field fields "from_time" integer none
    <*> field fields "to_time" integer none
    <*> field fields "verdict" (choice Verdict.ofWord?) none
    <*> field fields "dry_run" truth (some false)
    <*> field fields "conflicting_variables" (list text) (some [])
    <*> field fields "overrides" (table truth) (some .empty)

def ReconciliationReport.ofFields (fields : List (String × Datum)) :
    Except (List Complaint) ReconciliationReport :=
  Checked.run <| ReconciliationReport.mk
    <$> field fields "cause" text none
    <*> field fields "source_time" integer none
    <*> field fields "target_time" integer none
    <*> field fields "success" truth none
    <*> field fields "source_overrides" (table truth) (some .empty)
    <*> field fields "target_overrides" (table truth) (some .empty)
    <*> field fields "reason" (optional text) (some none)

end Chronicle
