import Scorebook.Book.Allocator
import Scorebook.Book.Assembly
import Scorebook.Book.EngravedPart
import Scorebook.Book.Frame
import Scorebook.Book.Identifier
import Scorebook.Book.Naming
import Scorebook.Conversion
import Scorebook.Decimal.Basic
import Scorebook.Decimal.Binary64
import Scorebook.Decimal.Reader
import Scorebook.Decimal.Shortest
import Scorebook.Dictionary
import Scorebook.Duration.Basic
import Scorebook.Duration.NoteValue
import Scorebook.Engraving.Directive
import Scorebook.Engraving.Mark
import Scorebook.Engraving.Pending
import Scorebook.Engraving.Skipped
import Scorebook.Engraving.Sound
import Scorebook.Engraving.Staff
import Scorebook.Engraving.Voice
import Scorebook.Error
import Scorebook.Json.Reader
import Scorebook.Json.Value
import Scorebook.Markup.Character
import Scorebook.Markup.Document
import Scorebook.Markup.Namespace
import Scorebook.Markup.Reference
import Scorebook.Markup.Token
import Scorebook.Pitch.Key
import Scorebook.Pitch.Name
import Scorebook.Pitch.Spelling
import Scorebook.Pitch.Transposition
import Scorebook.Score.Basic
import Scorebook.Score.Event
import Scorebook.Score.Grouping
import Scorebook.Score.Metadata
import Scorebook.Score.Order
import Scorebook.Score.Part
import Scorebook.Score.Reader
import Scorebook.Settings
import Scorebook.Settings.Reader
import Scorebook.Text.Blank
import Scorebook.Text.Lines
import Scorebook.Text.Numeral
import Scorebook.Text.Occurrence
import Scorebook.Text.Quoted
import Scorebook.Tree.Lookup
import Scorebook.Tree.Node
import Scorebook.Tree.OfMarkup
import Scorebook.Proofs.Allocation
import Scorebook.Proofs.CarriedKeys
import Scorebook.Proofs.ChordMarks
import Scorebook.Proofs.Closure
import Scorebook.Proofs.Commands
import Scorebook.Proofs.Decorations
import Scorebook.Proofs.Grouping
import Scorebook.Proofs.Failure.Engraving
import Scorebook.Proofs.Lookup
import Scorebook.Proofs.Reading
import Scorebook.Proofs.Failure.Document
import Scorebook.Proofs.Identifiers
import Scorebook.Proofs.Source.Book
import Scorebook.Proofs.Source.Duration
import Scorebook.Proofs.Source.Music
import Scorebook.Proofs.Source.Nesting
import Scorebook.Proofs.Source.Reference
import Scorebook.Proofs.Source.Sound
import Scorebook.Proofs.Timing
import Scorebook.Proofs.TokenLength
import Scorebook.Proofs.Trimming
import Scorebook.Proofs.Wiring
import Scorebook.Proofs.Congruence
import Scorebook.Proofs.Durations
import Scorebook.Proofs.Silence
import Scorebook.Proofs.Source.Pitch
import Scorebook.Proofs.Transposition
import Scorebook.Proofs.Source.Assignment
import Scorebook.Proofs.InstrumentNames
import Scorebook.Proofs.Spelling
import Scorebook.Proofs.Source.Outline
import Scorebook.Proofs.BookOutline
import Scorebook.Proofs.DocumentType
import Scorebook.Proofs.Removals
import Scorebook.Proofs.SharedIdentifiers
import Scorebook.Proofs.Transcript
