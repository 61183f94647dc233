import WordAutomata.Main
import WordAutomata.Proofs.Storage
import WordAutomata.Proofs.Shape.Fault
import WordAutomata.Proofs.Dfa.Calls
import WordAutomata.Proofs.Dfa.Reordering
import WordAutomata.Proofs.Recognition
import WordAutomata.Proofs.Language.Bracket
import WordAutomata.Proofs.Language.Modular
import WordAutomata.Proofs.Reading
import WordAutomata.Proofs.Json.Trailing
import WordAutomata.Proofs.Text.Lines
import WordAutomata.Proofs.Json.Lines
import WordAutomata.Proofs.Files.Tree
import WordAutomata.Proofs.Command.Recognize
import WordAutomata.Proofs.Text.Delimited
import WordAutomata.Proofs.Encoding
import WordAutomata.Proofs.Command.Failure
import WordAutomata.Proofs.Command.Arguments
import WordAutomata.Proofs.Command.Save
import WordAutomata.Proofs.Dfa.Continuation
import WordAutomata.Proofs.Recognition.Listing
import WordAutomata.Proofs.Dfa.Offender
import WordAutomata.Proofs.Dfa.NumberedRows
import WordAutomata.Proofs.Dfa.Numbering
import WordAutomata.Proofs.Dfa.NumberedWords
import WordAutomata.Proofs.Recognition.Refusal
import WordAutomata.Proofs.Recognition.Intake
import WordAutomata.Proofs.Recognition.Report
import WordAutomata.Proofs.Language.Cycle
import WordAutomata.Proofs.Dfa.Arcs
import WordAutomata.Proofs.Dfa.Drawing
import WordAutomata.Proofs.Dfa.Views
import WordAutomata.Proofs.Language.Binary
import WordAutomata.Proofs.Language.Grammar
import WordAutomata.Proofs.Alphabet
