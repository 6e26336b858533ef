import Oberon.Main
import Oberon.LineTable
import Oberon.Parser.Parse
import Oberon.Tree.Walk
import Oberon.Proofs.Derivation
import Oberon.Proofs.Consumption
import Oberon.Proofs.Place
import Oberon.Proofs.Fields
import Oberon.Proofs.Roles
import Oberon.Proofs.Lossless
import Oberon.Proofs.Spans
import Oberon.Proofs.ExpressionGrammar
import Oberon.Proofs.Nesting
import Oberon.Proofs.Implements
import Oberon.Proofs.ExpressionRules
import Oberon.Proofs.ExpressionParser
import Oberon.Proofs.RecordEnd
import Oberon.Proofs.Gaps
import Oberon.Proofs.Advance
import Oberon.Proofs.Recognition
import Oberon.Proofs.Partition
import Oberon.Proofs.Locality
import Oberon.Proofs.Relayout
import Oberon.Proofs.Stratification
import Oberon.Proofs.Progress
import Oberon.Proofs.Standalone
import Oberon.Proofs.Lookahead
import Oberon.Proofs.Counting
import Oberon.Proofs.Levels
import Oberon.Proofs.Conditions
import Oberon.Proofs.Bonds
import Oberon.Proofs.Coherence
import Oberon.Proofs.Reporting
import Oberon.Proofs.Enclosure
import Oberon.Proofs.Agreement
import Oberon.Proofs.Followers
import Oberon.Proofs.Terminators
import Oberon.Proofs.Height
import Oberon.Proofs.Words
import Oberon.Proofs.Chains
import Oberon.Proofs.Decoding
import Oberon.Proofs.Locations
import Oberon.Proofs.Numerals
import Oberon.Proofs.Origins
import Oberon.Proofs.IndexLists
import Oberon.Proofs.ExpressionLists
import Oberon.Proofs.IssueTokens
import Oberon.Proofs.IllFormed
import Oberon.Proofs.Complaints
import Oberon.Proofs.Rendering
import Oberon.Proofs.FileTrees
import Oberon.Proofs.Seeding
import Oberon.Proofs.TaskFailures
import Oberon.Proofs.Termination
import Oberon.Proofs.TokenCount
