import Winnow.Main
import Winnow.Proofs.NamespaceMembers
import Winnow.Proofs.Names
import Winnow.Proofs.Wildcards
import Winnow.Proofs.Choices
import Winnow.Proofs.Contexts
import Winnow.Proofs.Ranges
import Winnow.Proofs.LineBreaks
import Winnow.Proofs.Words
import Winnow.Proofs.Reentry
import Winnow.Proofs.Returns
import Winnow.Proofs.TextOrder
