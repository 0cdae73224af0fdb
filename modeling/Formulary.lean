import Formulary.Main
import Formulary.Proofs.Tree
import Formulary.Proofs.Climbing
import Formulary.Proofs.Juxtaposition
import Formulary.Proofs.Literal
import Formulary.Proofs.Confluence
import Formulary.Proofs.Inlining
import Formulary.Proofs.Printing
import Formulary.Proofs.Ordering
import Formulary.Proofs.Programs
import Formulary.Proofs.Results
import Formulary.Proofs.Publishing
import Formulary.Proofs.Runs
import Formulary.Proofs.LeastOrder
import Formulary.Proofs.Components
import Formulary.Proofs.Histories
import Formulary.Proofs.Comparing
import Formulary.Proofs.TruthValues
import Formulary.Proofs.Resolution
import Formulary.Proofs.Enclosing
import Formulary.Proofs.Counting
import Formulary.Proofs.Joining
import Formulary.Proofs.Passages
import Formulary.Proofs.Relevance
import Formulary.Proofs.Faults
import Formulary.Proofs.Turns
import Formulary.Proofs.SourceOrder
import Formulary.Proofs.RepeatedNames
import Formulary.Proofs.Association
import Formulary.Proofs.Finiteness
import Formulary.Proofs.Readable
import Formulary.Proofs.Accounts
