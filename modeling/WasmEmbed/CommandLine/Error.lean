import WasmEmbed.CommandLine.Switch
import WasmEmbed.Text.Quoted

/-!
# Errors of the command line

Why a command line is refused, and the text of each cause.
-/

namespace WasmEmbed.CommandLine

/-- Why a command line is refused. -/
inductive UsageError where
  /-- There is no command. -/
  | noCommand
  /-- There is no such command. -/
  | unknownCommand (name : List Char)
  /-- A word could stand for several spellings. -/
  | ambiguous (word : List Char) (spellings : List (List Char))
  /-- A switch lacks its value. -/
  | noValue (switch : Switch)
  /-- A switch has a value that it does not take. -/
  | unwantedValue (switch : Switch) (value : List Char)
  /-- The value of a switch is no integer. -/
  | notAnInteger (switch : Switch) (value : List Char)
  /-- Nothing takes these words. -/
  | unrecognized (words : List (List Char))
  deriving Repr, DecidableEq

namespace UsageError

/-- A text in quotes. -/
def shown (text : List Char) : String := String.ofList (Text.quoted text)

/-- The text of an error. -/
def message : UsageError → String
  | noCommand => "the following arguments are required: command"
  | unknownCommand name =>
    s!"argument command: invalid choice: {shown name} (choose from 'bundle')"
  | ambiguous word spellings =>
    let list := String.ofList ([',', ' '].intercalate spellings)
    s!"ambiguous option: {String.ofList word} could match {list}"
  | noValue switch => s!"argument {String.ofList switch.label}: expected one argument"
  | unwantedValue switch value =>
    s!"argument {String.ofList switch.label}: ignored explicit argument {shown value}"
  | notAnInteger switch value =>
    s!"argument {String.ofList switch.label}: invalid int value: {shown value}"
  | unrecognized words =>
    "unrecognized arguments: " ++ String.ofList ([' '].intercalate words)

end UsageError

end WasmEmbed.CommandLine
