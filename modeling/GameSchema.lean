import GameSchema.Command.Arguments
import GameSchema.Command.Files
import GameSchema.Command.Run
import GameSchema.Compilation
import GameSchema.Completion
import GameSchema.Diagnostic.Basic
import GameSchema.Diagnostic.Render
import GameSchema.Document.Store
import GameSchema.Grammar.Block
import GameSchema.Grammar.Draft
import GameSchema.Grammar.File
import GameSchema.Grammar.Recovery
import GameSchema.Grammar.Stream
import GameSchema.Json.Encode
import GameSchema.Main
import GameSchema.Proofs.Compilation
import GameSchema.Proofs.Completion
import GameSchema.Proofs.Diagnostic.CycleReports
import GameSchema.Proofs.Diagnostic.Locations
import GameSchema.Proofs.Document.Completions
import GameSchema.Proofs.Document.EditRanges
import GameSchema.Proofs.Document.History
import GameSchema.Proofs.Document.RangedEdits
import GameSchema.Proofs.Document.Utf8
import GameSchema.Proofs.Grammar.Binding
import GameSchema.Proofs.Grammar.Completeness
import GameSchema.Proofs.Grammar.Cursor
import GameSchema.Proofs.Grammar.DocComments
import GameSchema.Proofs.Grammar.Extension
import GameSchema.Proofs.Grammar.Flattening
import GameSchema.Proofs.Grammar.Growth
import GameSchema.Proofs.Grammar.Isolation
import GameSchema.Proofs.Grammar.Mistakes
import GameSchema.Proofs.Grammar.Moving
import GameSchema.Proofs.Grammar.Printability
import GameSchema.Proofs.Grammar.Progress
import GameSchema.Proofs.Grammar.Provenance
import GameSchema.Proofs.Grammar.Reads
import GameSchema.Proofs.Grammar.Reordering
import GameSchema.Proofs.Grammar.Reprint
import GameSchema.Proofs.Grammar.Result
import GameSchema.Proofs.Grammar.Run
import GameSchema.Proofs.Grammar.Segments
import GameSchema.Proofs.Grammar.Skipping
import GameSchema.Proofs.Grammar.Soundness
import GameSchema.Proofs.Grammar.Tree
import GameSchema.Proofs.Grammar.Unambiguous
import GameSchema.Proofs.Grammar.Uncommented
import GameSchema.Proofs.RoundTrip
import GameSchema.Proofs.Schema.Containment
import GameSchema.Proofs.Schema.CycleSearch
import GameSchema.Proofs.Schema.ElementaryCycle
import GameSchema.Proofs.Schema.Printed
import GameSchema.Proofs.Schema.Renumbering
import GameSchema.Proofs.Schema.Resolution
import GameSchema.Proofs.Schema.SearchRun
import GameSchema.Proofs.Schema.WellFormed
import GameSchema.Proofs.Schema.Written
import GameSchema.Proofs.Scope
import GameSchema.Proofs.Text.Lines
import GameSchema.Proofs.Text.Offsets
import GameSchema.Proofs.Text.Places
import GameSchema.Proofs.Token.CommentPlaces
import GameSchema.Proofs.Token.CommentedOut
import GameSchema.Proofs.Token.Geometry
import GameSchema.Proofs.Token.Lexical
import GameSchema.Proofs.Token.LexicalGrammar
import GameSchema.Proofs.Token.LineCursor
import GameSchema.Proofs.Token.Order
import GameSchema.Proofs.Token.Printed
import GameSchema.Proofs.Token.Rescan
import GameSchema.Proofs.Version
import GameSchema.Proofs.VersionSnippet
import GameSchema.Schema.Basic
import GameSchema.Schema.CycleSearch
import GameSchema.Schema.Render
import GameSchema.Scope
import GameSchema.Settings
import GameSchema.Text.Basic
import GameSchema.Text.Hidden
import GameSchema.Token.Basic
import GameSchema.Token.Scan
import GameSchema.Version
