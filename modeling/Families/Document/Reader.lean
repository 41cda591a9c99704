import Families.Document.Basic
import Families.Document.Scan

/-!
# Reading documents

A document may start with attributes that allow shorter forms.  After it only blanks and comments
may follow.
-/

namespace Families

/-- The shorter forms that a document allows itself. -/
structure Extensions where
  /-- Something optional may be written without saying that it is there. -/
  implicitSome : Bool := false
  /-- The fields of a record may be written in the parentheses around it. -/
  unwrapRecords : Bool := false
deriving DecidableEq

namespace Scan

variable {α β : Type}

/-- Takes items separated by commas up to a closing character, as long as a bound on their number
lasts.  A comma may follow the last one. -/
def separated (item : Scan α) (close : Char) : (bound : Nat) → Scan (List α)
  | 0 => failure
  | bound + 1 => do
    blanks
    if ← nextIs close then
      let _ ← next
      pure []
    else
      let first ← item
      if ← comma then
        let rest ← separated item close bound
        pure (first :: rest)
      else
        expect close
        pure [first]

/-- Takes items separated by commas up to a closing character. -/
def items (item : Scan α) (close : Char) : Scan (List α) := do
  let text ← get
  separated item close (text.length + 1)

/-- Takes a key and a value with a colon between them. -/
def entry (key : Scan α) (value : Scan β) : Scan (α × β) := do
  let key ← key
  blanks
  expect ':'
  blanks
  let value ← value
  pure (key, value)

/-- Takes a number. -/
def number : Scan Document := do
  let text ← get
  let written (scan : Scan Unit) : Scan Document := do
    scan
    let rest ← get
    pure (.number (String.ofList (text.take (text.length - rest.length))))
  if startsFraction text then
    written decimal
  else if startsSign text then
    written (signed <|> decimal)
  else
    let natural : Scan Document := do
      let value ← whole
      if value < 0x10000000000000000 then pure (.natural value) else failure
    natural <|> written decimal

/-- Whether the next thing is a name followed by a colon. -/
def startsFields (text : List Char) : Bool :=
  let field : Scan Unit := do
    let _ ← name
    blanks
    expect ':'
  (field text).isSome

/-- Takes what follows the opening parenthesis of a group. -/
def group (document : Scan Document) (label : Option Label) : Scan Document := do
  blanks
  let text ← get
  if startsFields text then
    .record label <$> items (entry name document) ')'
  else
    .tuple label <$> items document ')'

/-- Takes what follows the word for something optional that is there. -/
def optional (extensions : Extensions) (document : Scan Document) : Scan Document := do
  blanks
  if ← nextIs '(' then
    let _ ← next
    blanks
    let content ← document
    let _ ← comma
    expect ')'
    pure (.present content)
  else if extensions.implicitSome then
    .present <$> document
  else
    failure

/-- How a document goes on after a word with a meaning of its own. -/
def keyword? (extensions : Extensions) (document : Scan Document) :
    String → Option (Scan Document)
  | "true" => some (pure (.bool true))
  | "false" => some (pure (.bool false))
  | "None" => some (pure .absent)
  | "Some" => some (optional extensions document)
  | "inf" => some (pure (.number "inf"))
  | "NaN" => some (pure (.number "NaN"))
  | _ => none

/-- Takes a label. -/
def label : Scan Label := do
  match ← get with
  | 'S' :: 'o' :: 'm' :: 'e' :: 'r' :: '#' :: rest => do
    set ('r' :: '#' :: rest)
    .someMarked <$> name
  | 'r' :: '#' :: _ => .marked <$> name
  | _ => .plain <$> name

/-- Takes what follows a label. -/
def labelled (document : Scan Document) (label : Label) : Scan Document := do
  blanks
  if ← nextIs '(' then
    let _ ← next
    group document (some label)
  else
    pure (.name label)

/-- Takes a document that does not start with a name. -/
def unlabelled (document : Scan Document) : Scan Document := do
  match ← get with
  | '(' :: ')' :: rest => do
    set rest
    pure .unit
  | '(' :: rest => do
    set rest
    group document none
  | '[' :: rest => do
    set rest
    .list <$> items document ']'
  | '\x7b' :: rest => do
    set rest
    .map <$> items (entry document document) '\x7d'
  | '"' :: _ => .text <$> text
  | 'r' :: _ => .text <$> text
  | '\'' :: _ => .character <$> character
  | _ => number

/-- Takes a document, as long as a bound on its depth lasts. -/
def document (extensions : Extensions) : (bound : Nat) → Scan Document
  | 0 => failure
  | bound + 1 => do
    let word := (← get).takeWhile isNamePart
    match keyword? extensions (document extensions bound) (String.ofList word) with
    | some rest => do
      let _ ← takeWhile isNamePart
      rest
    | none => do
      let start : Scan (Option Label) := some <$> label <|> pure none
      match ← start with
      | some label => labelled (document extensions bound) label
      | none => unlabelled (document extensions bound)

/-- Takes given characters, each followed by blanks. -/
def expectAll : List String → Scan Unit
  | [] => pure ()
  | part :: parts => do
    let text ← get
    if part.toList.isPrefixOf text then
      set (text.drop part.length)
      blanks
      expectAll parts
    else
      failure

/-- Adds the extension with a name. -/
def extend (extensions : Extensions) : String → Scan Extensions
  | "unwrap_newtypes" => pure extensions
  | "implicit_some" => pure { extensions with implicitSome := true }
  | "unwrap_variant_newtypes" => pure { extensions with unwrapRecords := true }
  | _ => failure

/-- Takes the names of extensions, as long as a bound on their number lasts. -/
def extensionNames : (bound : Nat) → Extensions → Scan Extensions
  | 0, _ => failure
  | bound + 1, extensions => do
    let extensions ← extend extensions (← name)
    let hasComma ← comma
    let goesOn := ((← get).head?.map isNamePart).getD false
    if goesOn then
      if hasComma then extensionNames bound extensions else failure
    else
      pure extensions

/-- Takes the attributes before a document, as long as a bound on their number lasts. -/
def attributes : (bound : Nat) → Extensions → Scan Extensions
  | 0, _ => failure
  | bound + 1, extensions => do
    blanks
    if ← nextIs '#' then
      expectAll ["#", "!", "[", "enable", "("]
      let extensions ← extensionNames (bound + 1) extensions
      expectAll [")", "]"]
      attributes bound extensions
    else
      pure extensions

end Scan

namespace Document

/-- The document that a text holds, with the extensions that it allows itself. -/
def ofText? (text : String) : Option (Extensions × Document) :=
  let bound := text.length + 1
  let scan : Scan (Extensions × Document) := do
    let extensions ← Scan.attributes bound {}
    let document ← Scan.document extensions bound
    Scan.blanks
    if (← get).isEmpty then pure (extensions, document) else failure
  (scan text.toList).map Prod.fst

end Document
end Families
