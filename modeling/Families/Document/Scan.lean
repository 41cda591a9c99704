/-!
# Scanning texts

A scanner takes something off the front of a text or fails.  The scanners here take the smallest
parts of a document: blanks and comments, names, characters and texts, and numbers.
-/

namespace Families

/-- Takes a value off the front of a text. -/
abbrev Scan := StateT (List Char) Option

namespace Scan

variable {α : Type}

/-- Takes the next character. -/
def next : Scan Char := do
  match ← get with
  | [] => failure
  | character :: rest => do
    set rest
    pure character

/-- Takes a given character. -/
def expect (expected : Char) : Scan Unit := do
  let character ← next
  if character = expected then pure () else failure

/-- Takes characters as long as they belong to a class. -/
def takeWhile (belongs : Char → Bool) : Scan (List Char) := do
  let text ← get
  set (text.dropWhile belongs)
  pure (text.takeWhile belongs)

/-- Whether the next character is a given one, which is left in place. -/
def nextIs (expected : Char) : Scan Bool := do
  let text ← get
  pure (text.head? == some expected)

/-! ## Blanks -/

/-- Whether a character is a blank. -/
def isBlank (character : Char) : Bool :=
  character == ' ' || character == '\t' || character == '\n' || character == '\r'

/-- What the characters between two parts of a document belong to. -/
inductive Gap where
  /-- Nothing. -/
  | blank
  /-- A comment up to the end of the line. -/
  | line
  /-- A number of comments inside each other that have to be closed. -/
  | block (inner : Nat)

/-- What is left of a text after blanks and comments, unless a comment is not closed. -/
def afterGap? : Gap → List Char → Option (List Char)
  | .blank, '/' :: '/' :: rest => afterGap? .line rest
  | .blank, '/' :: '*' :: rest => afterGap? (.block 0) rest
  | .blank, '/' :: _ => none
  | .blank, character :: rest =>
    if isBlank character then afterGap? .blank rest else some (character :: rest)
  | .line, '\n' :: rest => afterGap? .blank rest
  | .line, _ :: rest => afterGap? .line rest
  | .block inner, '/' :: '*' :: rest => afterGap? (.block (inner + 1)) rest
  | .block 0, '*' :: '/' :: rest => afterGap? .blank rest
  | .block (inner + 1), '*' :: '/' :: rest => afterGap? (.block inner) rest
  | .block inner, _ :: rest => afterGap? (.block inner) rest
  | .block _, [] => none
  | _, [] => some []

/-- Skips blanks and comments. -/
def blanks : Scan Unit := do
  let text ← get
  match afterGap? .blank text with
  | none => failure
  | some rest => set rest

/-- Skips blanks and at most one comma.  The result says whether there was one. -/
def comma : Scan Bool := do
  blanks
  if ← nextIs ',' then
    let _ ← next
    blanks
    pure true
  else
    pure false

/-! ## Names -/

/-- Whether a name can start with a character. -/
def isNameStart (character : Char) : Bool := character.isAlpha || character == '_'

/-- Whether a name can go on with a character. -/
def isNamePart (character : Char) : Bool := character.isAlphanum || character == '_'

/-- Whether a marked name can go on with a character. -/
def isMarkedPart (character : Char) : Bool :=
  isNamePart character || character == '.' || character == '+' || character == '-'

/-- Takes a name.  Names marked by `r#` may contain dots and signs, which must not follow other
names. -/
def name : Scan String := do
  match ← get with
  | 'r' :: '"' :: _ => failure
  | 'r' :: '#' :: rest => do
    set rest
    let part ← takeWhile isMarkedPart
    if part.isEmpty then failure else pure (String.ofList part)
  | [] => failure
  | character :: _ =>
    if isNameStart character then do
      let part ← takeWhile isNamePart
      let after ← get
      if (after.head?.map isMarkedPart).getD false then failure else pure (String.ofList part)
    else
      failure

/-! ## Characters and texts -/

/-- The value of a hexadecimal digit. -/
def hexDigit? (character : Char) : Option Nat :=
  if character.isDigit then
    some (character.toNat - '0'.toNat)
  else if 'a' ≤ character ∧ character ≤ 'f' then
    some (character.toNat - 'a'.toNat + 10)
  else if 'A' ≤ character ∧ character ≤ 'F' then
    some (character.toNat - 'A'.toNat + 10)
  else
    none

/-- The number that digits stand for. -/
def ofDigits (base : Nat) (digits : List Nat) : Nat :=
  digits.foldl (fun value digit => value * base + digit) 0

/-- The character with a code point. -/
def character? (code : Nat) : Option Char :=
  if code.isValidChar then some (Char.ofNat code) else none

/-- Takes what follows a backslash and gives the character meant. -/
def escape : Scan Char := do
  match ← next with
  | '\'' => pure '\''
  | '"' => pure '"'
  | '\\' => pure '\\'
  | 'n' => pure '\n'
  | 'r' => pure '\r'
  | 't' => pure '\t'
  | '0' => pure '\x00'
  | 'x' => do
    let high ← next
    let low ← next
    let digits ← ([high, low].mapM hexDigit? : Option _)
    (character? (ofDigits 16 digits) : Option _)
  | 'u' => do
    expect '\x7b'
    let code ← takeWhile (· != '\x7d')
    expect '\x7d'
    if code.isEmpty || 6 < code.length then failure
    let digits ← (code.mapM hexDigit? : Option _)
    (character? (ofDigits 16 digits) : Option _)
  | _ => failure

/-- Takes a text up to its closing quote, as long as a bound on its length lasts. -/
def quoted : (bound : Nat) → Scan (List Char)
  | 0 => failure
  | bound + 1 => do
    match ← next with
    | '"' => pure []
    | '\\' => do
      let character ← escape
      let rest ← quoted bound
      pure (character :: rest)
    | character => do
      let rest ← quoted bound
      pure (character :: rest)

/-- Cuts a text at the first quote that is followed by the given hashes. -/
def cutAtQuote? (hashes : List Char) : List Char → Option (List Char × List Char)
  | [] => none
  | character :: rest =>
    if character = '"' ∧ hashes.isPrefixOf rest then
      some ([], rest.drop hashes.length)
    else
      (cutAtQuote? hashes rest).map fun (text, rest) => (character :: text, rest)

/-- Takes a text in quotes, or one without escapes marked by `r` and any number of hashes. -/
def text : Scan String := do
  match ← get with
  | '"' :: rest => do
    set rest
    String.ofList <$> quoted rest.length
  | 'r' :: rest => do
    set rest
    let hashes ← takeWhile (· == '#')
    expect '"'
    let (text, rest) ← (cutAtQuote? hashes (← get) : Option _)
    set rest
    pure (String.ofList text)
  | _ => failure

/-- Takes a character in single quotes. -/
def character : Scan Char := do
  expect '\''
  let value ←
    match ← next with
    | '\'' => failure
    | '\\' => escape
    | value => pure value
  expect '\''
  pure value

/-! ## Numbers -/

/-- Whether a character occurs in whole numbers. -/
def isWholePart (character : Char) : Bool :=
  (hexDigit? character).isSome || character == '_'

/-- Whether a character occurs in fractions. -/
def isFractionPart (character : Char) : Bool :=
  character.isDigit || ['.', 'e', 'E', '+', '-', '_'].contains character

/-- Leaves out a sign. -/
def dropSign : List Char → List Char
  | '+' :: rest => rest
  | '-' :: rest => rest
  | text => text

/-- Takes a whole number without a sign, in base 2, 8, 10 or 16, whose digits may be spaced by
underscores. -/
def whole : Scan Nat := do
  let base ←
    match ← get with
    | '0' :: 'x' :: rest => do
      set rest
      pure 16
    | '0' :: 'o' :: rest => do
      set rest
      pure 8
    | '0' :: 'b' :: rest => do
      set rest
      pure 2
    | _ => pure 10
  let part ← takeWhile isWholePart
  if part.isEmpty || part.head? == some '_' then failure
  let digits ← ((part.filter (· != '_')).mapM hexDigit? : Option _)
  if digits.all (· < base) then pure (ofDigits base digits) else failure

/-- Takes a whole number with a sign that fits into 64 bits, where one number more is below zero
than above. -/
def signed : Scan Unit := do
  let sign ← next
  let value ← whole
  let size := if sign = '-' then value else value + 1
  if size ≤ 0x8000000000000000 then pure () else failure

/-- Whether characters are a decimal number: a sign, digits around a point, and an exponent, of
which only one digit before the exponent is required. -/
def isDecimal (characters : List Char) : Bool :=
  let characters := dropSign characters
  let whole := characters.takeWhile Char.isDigit
  let rest := characters.dropWhile Char.isDigit
  let fraction :=
    match rest with
    | '.' :: rest => rest.takeWhile Char.isDigit
    | _ => []
  let rest :=
    match rest with
    | '.' :: rest => rest.dropWhile Char.isDigit
    | rest => rest
  !(whole.isEmpty && fraction.isEmpty) &&
    match rest with
    | [] => true
    | mark :: exponent =>
      let exponent := dropSign exponent
      (mark == 'e' || mark == 'E') && !exponent.isEmpty && exponent.all Char.isDigit

/-- Takes a decimal number, or a sign before the name of something that is no number. -/
def decimal : Scan Unit := do
  let unending := (← get).take 4
  let after := (← get).drop 4
  if ["+inf", "-inf", "+NaN", "-NaN"].contains (String.ofList unending) &&
      !(after.head?.map isNamePart).getD false then
    set after
  else
    let part ← takeWhile isFractionPart
    if isDecimal part then pure () else failure

/-- Whether a text starts with a number that cannot be whole. -/
def startsFraction (text : List Char) : Bool :=
  let text := dropSign text
  (text.takeWhile isWholePart).length < (text.takeWhile isFractionPart).length

/-- Whether a text starts with a sign. -/
def startsSign (text : List Char) : Bool :=
  text.head? == some '+' || text.head? == some '-'

end Scan
end Families
