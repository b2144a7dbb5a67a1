import CommandLine.Config.Colon
import CommandLine.Console
import CommandLine.Proofs.Edit
import CommandLine.Proofs.History
import CommandLine.Proofs.WellFormed
import CommandLine.Proofs.Move
import CommandLine.Proofs.Path
import CommandLine.Proofs.References
import CommandLine.Proofs.Names
import CommandLine.Proofs.Replacement
import CommandLine.Proofs.Conservation
import CommandLine.Proofs.Refusal
import CommandLine.Proofs.Gathering
import CommandLine.Proofs.Layers
import CommandLine.Proofs.Delivering
import CommandLine.Proofs.Acceptance
import CommandLine.Proofs.Writing
import CommandLine.Proofs.Independence
import CommandLine.Proofs.Consumption
import CommandLine.Proofs.Failure
import CommandLine.Proofs.HelpFirst
import CommandLine.Proofs.Lines
import CommandLine.Proofs.Quoting
import CommandLine.Proofs.IniRoundTrip
import CommandLine.Proofs.QuoteCount
import CommandLine.Proofs.Dealing
import CommandLine.Proofs.FlagItems
import CommandLine.Proofs.ItemRoutes
import CommandLine.Proofs.ListNotation
import CommandLine.Proofs.CommandNames
import CommandLine.Proofs.Stopping
import CommandLine.Proofs.Overflow
import CommandLine.Proofs.Minimum
import CommandLine.Proofs.Spelling
import CommandLine.Proofs.FlagTexts
import CommandLine.Proofs.Folding
import CommandLine.Proofs.Marked
import CommandLine.Proofs.Confinement
import CommandLine.Proofs.Remainders
import CommandLine.Proofs.Repetition
import CommandLine.Proofs.Declarations
import CommandLine.Proofs.Answering
import CommandLine.Proofs.Completion
import CommandLine.Proofs.Checking
import CommandLine.Proofs.Wrapping
import CommandLine.Proofs.HelpLayout
import CommandLine.Proofs.SectionHeaders
import CommandLine.Proofs.Handles
import CommandLine.Proofs.Ranges
import CommandLine.Proofs.Counters
import CommandLine.Proofs.WrappedWords
import CommandLine.Proofs.Lineage
