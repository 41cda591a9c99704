import Families.Phrase.Basic

/-!
# The text of phrases

How terms, sorts and levels are written in messages.  Variables are written as indices, and the
arguments of placeholders are left out.
-/

namespace Families
namespace Phrase

/-- The text of a phrase needs parentheses when it stands as an argument. -/
def isCompound : {category : Category} → Phrase category → Bool
  | _, app _ _ _ => true
  | _, pi _ _ _ _ => true
  | _, univ (set _) => true
  | _, level _ => true
  | _, classified _ term => term.isCompound
  | _, _ => false

/-- The text, in parentheses if the phrase needs them. -/
def enclose {category : Category} (phrase : Phrase category) (text : String) : String :=
  if phrase.isCompound then "(" ++ text ++ ")" else text

/-- The text of an argument, by how it is given. -/
def argumentText {category : Category} (phrase : Phrase category) (text : String) :
    Plicity → String
  | .explicit => phrase.enclose text
  | .implicit => "\x7b" ++ text ++ "\x7d"
  | .inst => "\x7b\x7b" ++ text ++ "\x7d\x7d"

/-- The text of a binder, given the text of its type. -/
def binderText {category : Category} (name : String) (domain : Phrase category) (text : String) :
    Plicity → String
  | .explicit => if name = "_" then domain.enclose text else "(" ++ name ++ " : " ++ text ++ ")"
  | .implicit => "\x7b" ++ name ++ " : " ++ text ++ "\x7d"
  | .inst => "\x7b\x7b" ++ name ++ " : " ++ text ++ "\x7d\x7d"

/-- The text of a level, given the text of its atoms separated by commas. -/
def levelText (constant : Nat) (text : String) : Phrase .atoms → String
  | noAtoms => toString constant
  | atom _ _ rest =>
    if 0 < constant then
      "max(" ++ toString constant ++ ", " ++ text ++ ")"
    else
      match rest with
      | noAtoms => text
      | atom _ _ _ => "max(" ++ text ++ ")"

/-- The text of a phrase. -/
def display (names : NameTable) : {category : Category} → Phrase category → String
  | _, var index => "#" ++ toString index
  | _, const path => names.display path
  | _, app function argument info =>
    (match function with
      | app _ _ _ => function.display names
      | _ => function.enclose (function.display names)) ++
    " " ++ argument.argumentText (argument.display names) info.plicity
  | _, pi name info domain codomain =>
    binderText (names.text name) domain (domain.display names) info.plicity ++
    " → " ++ codomain.display names
  | _, univ sort => sort.display names
  | _, level bound => bound.display names
  | _, placeholder id _ => "?" ++ toString id
  | _, classified _ term => term.display names
  | _, prop => "Prop"
  | _, set bound =>
    match bound with
    | lub constant noAtoms => if constant = 0 then "Set" else "Set" ++ toString constant
    | lub _ (atom _ _ _) => "Set " ++ bound.display names
  | _, sizeUniv => "SizeUniv"
  | _, omega => "Setω"
  | _, sortPlaceholder id _ => "?" ++ toString id
  | _, lub constant atoms => levelText constant (atoms.display names) atoms
  | _, noAtoms => ""
  | _, atom term offset rest =>
    term.enclose (term.display names) ++
    (if offset = 0 then "" else " + " ++ toString offset) ++
    (match rest with
      | noAtoms => ""
      | atom _ _ _ => ", " ++ rest.display names)
  | _, noTerms => ""
  | _, terms _ _ => ""

end Phrase
end Families
