/-!
# Documents

Modules are written, and summaries are printed, as documents: numbers, texts, lists, and groups in
parentheses that may carry a name.
-/

namespace Families

/-- The name at the front of a document, as it is written. -/
inductive Label where
  /-- A name. -/
  | plain (text : String)
  /-- A name marked by `r#`. -/
  | marked (text : String)
  /-- The word `Some` right before a name marked by `r#`, which together are no name. -/
  | someMarked (text : String)
deriving DecidableEq

namespace Label

/-- The name that a label is. -/
def text? : Label → Option String
  | plain text => text
  | marked text => text
  | someMarked _ => none

/-- What is left of a label when the word `Some` at its front is taken by itself. -/
def afterSome? : Label → Option Label
  | plain text =>
    if "Some".toList.isPrefixOf text.toList then
      some (plain (String.ofList (text.toList.drop 4)))
    else
      none
  | marked _ => none
  | someMarked text => some (marked text)

/-- Whether a label is a given name. -/
def isNamed (label : Label) (expected : String) : Bool := label.text? == some expected

/-- The text of a label. -/
def toText : Label → String
  | plain text => text
  | marked text => "r#" ++ text
  | someMarked text => "Somer#" ++ text

end Label

/-- A document. -/
inductive Document where
  /-- A pair of parentheses. -/
  | unit
  /-- A truth value. -/
  | bool (value : Bool)
  /-- A natural number. -/
  | natural (value : Nat)
  /-- A number with a sign or a fraction, as it is written. -/
  | number (written : String)
  /-- A character. -/
  | character (value : Char)
  /-- A text. -/
  | text (value : String)
  /-- Nothing, where something is optional. -/
  | absent
  /-- Something, where something is optional. -/
  | present (content : Document)
  /-- A list. -/
  | list (items : List Document)
  /-- A list of keys with values. -/
  | map (entries : List (Document × Document))
  /-- A name alone. -/
  | name (label : Label)
  /-- A group of documents. -/
  | tuple (label : Option Label) (items : List Document)
  /-- A group of fields. -/
  | record (label : Option Label) (fields : List (String × Document))

namespace Document

/-- The document whose label is what is left when the word `Some` is taken by itself. -/
def afterSome? : Document → Option Document
  | name label => name <$> label.afterSome?
  | tuple (some label) items => (tuple · items) <$> some <$> label.afterSome?
  | record (some label) fields => (record · fields) <$> some <$> label.afterSome?
  | _ => none

mutual

/-- Whether the labels in a document are names and it is not nested deeper than a number of levels.
A group takes a level, and so does each of its parts. -/
def fits : (levels : Nat) → Document → Bool
  | levels, present content => 0 < levels && content.fits (levels - 1)
  | levels, list items => 0 < levels && itemsFit (levels - 1) items
  | levels, map entries => 0 < levels && entriesFit (levels - 1) entries
  | _, name label => label.text?.isSome
  | levels, tuple label items =>
    0 < levels && label.all (·.text?.isSome) && itemsFit (levels - 1) items
  | levels, record label fields =>
    0 < levels && label.all (·.text?.isSome) && fieldsFit (levels - 1) fields
  | _, _ => true

/-- Whether items fit into a number of levels. -/
def itemsFit : (levels : Nat) → List Document → Bool
  | _, [] => true
  | levels, item :: items => 0 < levels && item.fits (levels - 1) && itemsFit levels items

/-- Whether keys and values fit into a number of levels. -/
def entriesFit : (levels : Nat) → List (Document × Document) → Bool
  | _, [] => true
  | levels, (key, value) :: entries =>
    0 < levels && key.fits (levels - 1) && value.fits (levels - 1) && entriesFit levels entries

/-- Whether fields fit into a number of levels. -/
def fieldsFit : (levels : Nat) → List (String × Document) → Bool
  | _, [] => true
  | levels, (_, value) :: fields => 0 < levels && value.fits (levels - 1) && fieldsFit levels fields

end

end Document
end Families
