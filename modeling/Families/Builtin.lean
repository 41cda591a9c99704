import Families.State

/-!
# Built-in declarations

Every check starts from a table that knows two paths and from a signature that declares them: the
type of levels, and the type of sizes.
-/

namespace Families

namespace Path

/-- The path of the type of levels. -/
def level : Path := ⟨0⟩

/-- The path of the type of sizes. -/
def size : Path := ⟨1⟩

end Path

namespace NameTable

/-- The table that knows the built-in paths. -/
def initial : NameTable :=
  ((empty.enterPath "Level").2.enterPath "Size").2

/-- The type of levels is the first path. -/
theorem enterPath_level : (empty.enterPath "Level").1 = Path.level := by
  decide +kernel

/-- The type of sizes is the second path. -/
theorem enterPath_size : ((empty.enterPath "Level").2.enterPath "Size").1 = Path.size := by
  decide +kernel

end NameTable

namespace State

/-- The built-in declarations. -/
def builtins : List Definition :=
  [ ⟨Path.level, .classified (Universe.ofNat 1) (.univ (Universe.ofNat 0)), .postulate⟩,
    ⟨Path.size, .classified .omega (.univ .sizeUniv), .postulate⟩ ]

/-- The state that every check starts from. -/
def initial : State where
  signature := builtins.foldl
    (fun signature definition => signature.insert definition.path ⟨definition, .complete⟩) .empty
  placeholders := []
  constraints := []
  instances := .empty

end State

end Families
