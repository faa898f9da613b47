import Munch.Attempt
import Munch.Automaton.Basic
import Munch.Automaton.Builder
import Munch.Automaton.Checked
import Munch.Automaton.Language
import Munch.Candidate
import Munch.Channel.Basic
import Munch.Channel.Outlook
import Munch.Channel.Schedule
import Munch.Channel.Steps
import Munch.Channel.Threads
import Munch.Command.Arguments
import Munch.Command.Arrival
import Munch.Command.Lines
import Munch.Command.Run
import Munch.Family
import Munch.Frame
import Munch.Grammar
import Munch.Input
import Munch.Lexer.Alike
import Munch.Lexer.Basic
import Munch.Lexer.Calls
import Munch.Lexer.Error
import Munch.Lexer.Ledger
import Munch.Lexer.Moves
import Munch.Lexer.Pulls
import Munch.Lexer.Reading
import Munch.Main
import Munch.Offer
import Munch.Pass
import Munch.Position
import Munch.Scanner.Basic
import Munch.Scanner.Checked
import Munch.Scanner.Course
import Munch.Scanner.Listing
import Munch.Scanner.Schedule
import Munch.Shell.Display
import Munch.Shell.Grammar
import Munch.Shell.Piece
import Munch.Shell.Site
import Munch.Shell.Token
import Munch.Shell.Word
import Munch.Source
import Munch.Terminal
import Munch.Text.Duration
import Munch.Text.Escape
import Munch.Text.Extending
import Munch.Text.Json
import Munch.Text.Printable
import Munch.Utf8.Decode
import Munch.Utf8.Encoding
import Munch.Utf8.Reader
import Munch.Proofs.Attempt
import Munch.Proofs.Pass
import Munch.Proofs.Scanner
import Munch.Proofs.MaximalMunch
import Munch.Proofs.Listing
import Munch.Proofs.Tiling
import Munch.Proofs.Stream
import Munch.Proofs.Stop
import Munch.Proofs.Continuing
import Munch.Proofs.Failure
import Munch.Proofs.Lookahead
import Munch.Proofs.Nesting
import Munch.Proofs.Ending
import Munch.Proofs.Accounts
import Munch.Proofs.Custody
import Munch.Proofs.Breakdown
import Munch.Proofs.Delivery
import Munch.Proofs.Threading
import Munch.Proofs.Cancelling
import Munch.Proofs.Command
import Munch.Proofs.Decoding
import Munch.Proofs.Reader
import Munch.Proofs.Coverage
import Munch.Proofs.Literals
import Munch.Proofs.ShellTables
import Munch.Proofs.Recognizing
import Munch.Proofs.Words
import Munch.Proofs.ShellRules
import Munch.Proofs.Speaking
import Munch.Proofs.Drained
import Munch.Proofs.Pieces
import Munch.Proofs.Splitting
import Munch.Proofs.Accounting
import Munch.Proofs.CommentLines
import Munch.Proofs.Respelling
import Munch.Proofs.ExitStatus
import Munch.Proofs.Sites
import Munch.Proofs.Operators
import Munch.Proofs.ReservedWords
import Munch.Proofs.IoNumbers
import Munch.Proofs.Lookups
import Munch.Proofs.Interruptions
import Munch.Proofs.ReadAhead
import Munch.Proofs.RunAhead
import Munch.Proofs.Peeking
import Munch.Proofs.LookBack
import Munch.Proofs.Limit
import Munch.Proofs.Arrival
import Munch.Proofs.Spelling
import Munch.Proofs.Backlog
import Munch.Proofs.UnknownStates
import Munch.Proofs.Shadowing
import Munch.Proofs.Chains
import Munch.Proofs.Escapes
import Munch.Proofs.Kinds
import Munch.Proofs.TokenLines
import Munch.Proofs.Offsets
