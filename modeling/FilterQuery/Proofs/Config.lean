import FilterQuery.Config
import FilterQuery.Proofs.Text.Split
import Mathlib.Data.List.Forall2
import Mathlib.Data.List.Induction

/-!
Configurations line by line. What a line says does not depend on the lines around it: it is passed
over, it sets one key, or something is wrong with it. Each key has what the last line that sets it
says, and each line with which something is wrong has one warning, under its number.
-/

namespace FilterQuery

open Text

variable {α : Type} {line key value problem : String} {ls : List String} {s : Setting}

/-! ### Lines -/

/-- The line is blank or a comment. -/
def IsPassedOver (line : String) : Prop :=
  trim line.toList = [] ∨ (trim line.toList).head? = some '#'

/-- The line gives a value to a key, with a `=` between them and blanks around each. -/
def Assigns (line key value : String) : Prop :=
  ¬ IsPassedOver line ∧ ∃ before after, trim line.toList = before ++ '=' :: after ∧
    '=' ∉ before ∧ key = String.ofList (trim before) ∧ value = String.ofList (trim after)

/-- What a key is set to by a value that is valid for it. -/
inductive Means : (key value : String) → Setting → Prop where
  | debounce {value : String} {ms : Nat} : readWord? value.toList = some ms →
    Means "editor.debounce_ms" value (.debounce ms)
  | suggestLimit {value : String} {n : Nat} : readWord? value.toList = some n →
    Means "suggest.limit" value (.suggestLimit n)
  | columns (value : String) : Means "suggest.columns" value (.columns (splitList value))
  | json {value : String} {b : Bool} : ConfigLine.readBool? value = some b →
    Means "output.json" value (.json b)

/-- The keys that can be set. -/
def configKeys : List String :=
  ["editor.debounce_ms", "suggest.limit", "suggest.columns", "output.json"]

/-- The line sets something. -/
def Sets (line : String) (s : Setting) : Prop :=
  ∃ key value, Assigns line key value ∧ Means key value s

/-- Something is wrong with the line. -/
inductive Wrong (line : String) : (problem : String) → Prop where
  | withoutEquals : ¬ IsPassedOver line → (∀ key value, ¬ Assigns line key value) →
    Wrong line "ignoring line without '='"
  | unknownKey {key value : String} : Assigns line key value → key ∉ configKeys →
    Wrong line s!"unknown key '{key}'"
  | invalidValue {key value : String} : Assigns line key value → key ∈ configKeys →
    (∀ s, ¬ Means key value s) → Wrong line s!"invalid value '{value}' for {key}"

theorem assigns_iff : Assigns line key value ↔ ¬ IsPassedOver line ∧
    (splitFirst? '=' (trim line.toList)).map
      (fun (before, after) => (String.ofList (trim before), String.ofList (trim after))) =
        some (key, value) := by
  simp only [Assigns, Option.map_eq_some_iff, Prod.exists, splitFirst?_eq_some_iff, Prod.mk.injEq,
    and_assoc, eq_comm (a := key), eq_comm (a := value)]

theorem Assigns.unique {key' value' : String} (h : Assigns line key value)
    (h' : Assigns line key' value') : key' = key ∧ value' = value := by
  have he := (assigns_iff.1 h').2.symm.trans (assigns_iff.1 h).2
  exact Prod.mk.inj (Option.some.inj he)

namespace ConfigLine

end ConfigLine

/-! ### Values -/

namespace LastValue

variable {setting : α → Setting} {default v : α}

end LastValue

/-! ### Warnings -/

/-- There is one warning for each line that is not passed over and sets nothing, in the order of the
lines, with the number of the line and what is wrong with it. -/
structure Warned (origin : String) (ls : List String) (places : List Nat) (warnings : List String) :
    Prop where
  increasing : places.Pairwise (· < ·)
  mem_iff (i : Nat) : i ∈ places ↔
    ∃ line, ls[i]? = some line ∧ ¬ IsPassedOver line ∧ ∀ s, ¬ Sets line s
  texts : List.Forall₂ (fun i warning => ∃ line problem, ls[i]? = some line ∧ Wrong line problem ∧
    warning = s!"{origin}:{i + 1}: {problem}") places warnings

namespace Warned

variable {origin : String} {places : List Nat} {warnings : List String}

theorem nil (origin : String) : Warned origin [] [] [] :=
  ⟨.nil, fun i => by simp, .nil⟩

theorem lt_length (H : Warned origin ls places warnings) {i : Nat} (h : i ∈ places) :
    i < ls.length := by
  obtain ⟨line, hline, -⟩ := (H.mem_iff i).1 h
  exact (List.getElem?_eq_some_iff.1 hline).1

end Warned

/-- An invalid value neither counts nor takes back the one before it. -/
example : Config.parse "# display\nsuggest.limit=3\n\nsuggest.limit=x\n" = { suggestLimit := 3 } ∧
    Config.warnings "rc" "# display\nsuggest.limit=3\n\nsuggest.limit=x\n" =
      ["rc:4: invalid value 'x' for suggest.limit"] := by
  decide +kernel

end FilterQuery
