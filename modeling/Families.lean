import Families.Main
import Families.Proofs.Instantiation
import Families.Proofs.Soundness
import Families.Proofs.Arrows
import Families.Proofs.Coinductivity
import Families.Proofs.Silence
import Families.Proofs.Verdicts
import Families.Proofs.BoundParameters
import Families.Proofs.Faithfulness
import Families.Proofs.Recurrence
import Families.Proofs.SmallParameters
