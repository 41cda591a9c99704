/-!
# Names

Binders carry names and declarations carry paths, which are names joined by `::`.  Both are
numbers into a table of texts; they are equal exactly when their texts are, and they are ordered
by when their text was first entered.
-/

namespace Families

/-- The name of a local variable, a position in the table's texts. -/
@[ext]
structure Name where
  /-- How many texts were entered before this one. -/
  id : Nat
deriving DecidableEq

/-- The name of a declaration, a position in the table's paths. -/
@[ext]
structure Path where
  /-- How many paths were entered before this one. -/
  id : Nat
deriving DecidableEq

namespace Path

/-- Cuts a text at every `::`, from left to right. -/
def split : List Char → List (List Char)
  | ':' :: ':' :: rest => [] :: split rest
  | [] => [[]]
  | character :: rest =>
    match split rest with
    | [] => [[character]]
    | segment :: segments => (character :: segment) :: segments

end Path

/-- Every text and path entered so far, oldest first. -/
structure NameTable where
  /-- The texts of names. -/
  texts : List String
  /-- The segments of paths. -/
  paths : List (List Name)
deriving DecidableEq

namespace NameTable

/-- Enters a text, reusing its number if it is already known. -/
def enterName (table : NameTable) (text : String) : Name × NameTable :=
  match table.texts.idxOf? text with
  | some position => (⟨position⟩, table)
  | none => (⟨table.texts.length⟩, { table with texts := table.texts ++ [text] })

/-- Enters the segments of a path, from left to right. -/
def enterNames (table : NameTable) : List String → List Name × NameTable
  | [] => ([], table)
  | text :: texts =>
    let (name, table) := table.enterName text
    let (names, table) := table.enterNames texts
    (name :: names, table)

/-- Enters a path given by its segments, reusing its number if it is already known. -/
def enterSegments (table : NameTable) (segments : List Name) : Path × NameTable :=
  match table.paths.idxOf? segments with
  | some position => (⟨position⟩, table)
  | none => (⟨table.paths.length⟩, { table with paths := table.paths ++ [segments] })

/-- Enters a path written with `::`, its segments first. -/
def enterPath (table : NameTable) (text : String) : Path × NameTable :=
  let (segments, table) := table.enterNames ((Path.split text.toList).map String.ofList)
  table.enterSegments segments

/-- The text of a name. -/
def text (table : NameTable) (name : Name) : String :=
  table.texts.getD name.id ""

/-- The segments of a path. -/
def segments (table : NameTable) (path : Path) : List Name :=
  table.paths.getD path.id []

/-- The segments of a path joined by `::`. -/
def display (table : NameTable) (path : Path) : String :=
  String.intercalate "::" ((table.segments path).map table.text)

/-- The table without entries. -/
def empty : NameTable where
  texts := []
  paths := []

end NameTable

end Families
