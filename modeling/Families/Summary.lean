import Families.Datatype.Check
import Families.Document.Printer

/-!
# Summaries

What is printed about a datatype that was accepted.
-/

namespace Families

/-- The name of a way to define data. -/
def Induction.document : Induction → Document
  | .ind => .name (.plain "Inductive")
  | .coind => .name (.plain "CoInductive")

/-- The positions in a set, in increasing order. -/
def Positions.document (positions : Positions) : Document :=
  .list (positions.toList.map .natural)

namespace CertifiedDatatype

/-- What is printed about a constructor. -/
def constructorSummary (names : NameTable) (path : Path) (constructor : Constructor) : Document :=
  .record none
    [("name", .text (names.display path)),
      ("arity", .natural constructor.arity),
      ("forced", .list (constructor.forced.map .bool))]

/-- What is printed about a datatype. -/
def summary (names : NameTable) (certified : CertifiedDatatype) : Document :=
  let datatype := certified.datatype
  .record none
    [("name", .text (names.display certified.path)),
      ("parameters", .natural datatype.parameters),
      ("indices", .natural datatype.indices),
      ("sort", .text (datatype.sort.display names)),
      ("induction", datatype.induction.document),
      ("small_parameters", datatype.smallParameters.document),
      ("non_linear_parameters", datatype.nonLinearParameters.document),
      ("constructors", .list (certified.constructors.map fun (path, constructor) =>
        constructorSummary names path constructor))]

end CertifiedDatatype
end Families
