import PredictiveParsing.Datum

/-!
# Settings

The stages of the reduction can be switched off one by one, the test for
the end of the stream can be left out, and the empty string can be shown
under another name. Settings are read from named data: a name that is
absent leaves its default, unknown names are passed over, and a datum of
the wrong kind is refused. Switches must be switches.
-/

namespace PredictiveParsing

/-- How a grammar is reduced and a stream is parsed. -/
structure Settings where
  /-- Remove useless symbols. -/
  removeUseless : Bool := true
  /-- Remove direct left recursion. -/
  removeLeftRecursion : Bool := true
  /-- Factor common prefixes. -/
  leftFactor : Bool := true
  /-- Demand the end of the stream after the start symbol. -/
  requireEndOfStream : Bool := true
  /-- How the empty string is shown in the sets of an analysis. -/
  epsilonLabel : String := "epsilon"
  deriving DecidableEq, Repr

/-- A setting was given a datum of the wrong kind. -/
inductive SettingFault where
  /-- The setting is a switch and the datum is none. -/
  | notSwitch (name : String) (value : Datum)
  /-- The setting is a text and the datum is none. -/
  | notText (name : String) (value : Datum)
  deriving DecidableEq

/-- The message of a refused setting. -/
def SettingFault.message : SettingFault → String
  | notSwitch name value =>
    "Option '" ++ name ++ "' must be a boolean, got " ++ value.literal
  | notText name value => "Option '" ++ name ++ "' must be a string, got " ++ value.literal

namespace Settings

/-- The switch of a name among data, or its default. -/
def switch (fields : List (String × Datum)) (name : String) (default : Bool) :
    Except SettingFault Bool :=
  match Datum.field? name fields with
  | none => .ok default
  | some (.bool b) => .ok b
  | some other => .error (.notSwitch name other)

/-- The text of a name among data, or its default. -/
def textOf (fields : List (String × Datum)) (name : String) (default : String) :
    Except SettingFault String :=
  match Datum.field? name fields with
  | none => .ok default
  | some (.text s) => .ok s
  | some other => .error (.notText name other)

/-- The settings of named data. Of several faults the first in the order of
the settings counts. -/
def ofFields (fields : List (String × Datum)) : Except SettingFault Settings := do
  let defaults : Settings := {}
  let removeUseless ← switch fields "remove_useless" defaults.removeUseless
  let removeLeftRecursion ← switch fields "remove_left_recursion" defaults.removeLeftRecursion
  let leftFactor ← switch fields "left_factor" defaults.leftFactor
  let requireEndOfStream ← switch fields "require_end_of_stream" defaults.requireEndOfStream
  let epsilonLabel ← textOf fields "epsilon_label" defaults.epsilonLabel
  pure { removeUseless, removeLeftRecursion, leftFactor, requireEndOfStream, epsilonLabel }

end Settings

end PredictiveParsing
