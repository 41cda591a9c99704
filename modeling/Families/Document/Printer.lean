import Families.Document.Basic
import Families.Text.Shape

/-!
# Printing documents

Every item of a list and every field of a record stands on a line of its own, followed by a comma
and indented by four blanks more than what is around it.
-/

namespace Families
namespace Text

/-- How a character is written between quotes. -/
def escaped (character : Char) : List Char :=
  match character with
  | '\x00' => ['\\', '0']
  | '\t' => ['\\', 't']
  | '\r' => ['\\', 'r']
  | '\n' => ['\\', 'n']
  | '\'' => ['\\', '\'']
  | '"' => ['\\', '"']
  | '\\' => ['\\', '\\']
  | character =>
    if isShapeless character then
      '\\' :: 'u' :: '\x7b' :: Nat.toDigits 16 character.toNat ++ ['\x7d']
    else
      [character]

/-- A text between quotes. -/
def quoted (text : String) : String :=
  "\"" ++ String.ofList (text.toList.flatMap escaped) ++ "\""

end Text

namespace Document

/-- The start of a line. -/
def margin (level : Nat) : String := String.ofList (List.replicate (4 * level) ' ')

/-- Lines between an opening and a closing text, or nothing between them. -/
def block (level : Nat) (opening closing : String) (lines : List String) : String :=
  if lines.isEmpty then
    opening ++ closing
  else
    opening ++ "\n" ++ String.join (lines.map fun line => margin (level + 1) ++ line ++ ",\n") ++
      margin level ++ closing

/-- The text before a group. -/
def labelText (label : Option Label) : String := (label.map Label.toText).getD ""

mutual

/-- The text of a document at a level of indentation. -/
def render (level : Nat) : Document → String
  | unit => "()"
  | bool value => if value then "true" else "false"
  | natural value => toString value
  | number written => written
  | character value => "'" ++ String.ofList (Text.escaped value) ++ "'"
  | text value => Text.quoted value
  | absent => "None"
  | present content => "Some(" ++ content.render level ++ ")"
  | list items => block level "[" "]" (renderItems (level + 1) items)
  | map entries => block level "\x7b" "\x7d" (renderEntries (level + 1) entries)
  | name label => label.toText
  | tuple label items =>
    labelText label ++ "(" ++ String.intercalate ", " (renderItems level items) ++ ")"
  | record label fields => labelText label ++ block level "(" ")" (renderFields (level + 1) fields)

/-- The texts of items. -/
def renderItems (level : Nat) : List Document → List String
  | [] => []
  | item :: items => item.render level :: renderItems level items

/-- The texts of keys with values. -/
def renderEntries (level : Nat) : List (Document × Document) → List String
  | [] => []
  | (key, value) :: entries =>
    (key.render level ++ ": " ++ value.render level) :: renderEntries level entries

/-- The texts of fields. -/
def renderFields (level : Nat) : List (String × Document) → List String
  | [] => []
  | (key, value) :: fields =>
    (key ++ ": " ++ value.render level) :: renderFields level fields

end

/-- The text of a document. -/
def toText (document : Document) : String := document.render 0

end Document
end Families
