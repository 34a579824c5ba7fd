import Phrasebook.Main
import Phrasebook.Proofs.Markup.RoundTrip
import Phrasebook.Proofs.Page.Excluded
import Phrasebook.Proofs.Page.Opaque
import Phrasebook.Proofs.Markup.Acceptance
import Phrasebook.Proofs.Markup.Numbering
import Phrasebook.Proofs.Markup.Segments
import Phrasebook.Proofs.Table.ObjectLiteral
import Phrasebook.Proofs.Escape.Spelling
import Phrasebook.Proofs.Lexeme.Segmentation
import Phrasebook.Proofs.Page.Once
import Phrasebook.Proofs.Batch
import Phrasebook.Proofs.Scan.Base
import Phrasebook.Proofs.Engine
import Phrasebook.Proofs.Table.Agreement
import Phrasebook.Proofs.Table.Blanked
import Phrasebook.Proofs.Engine.Order
import Phrasebook.Proofs.Guarded.Engine
import Phrasebook.Proofs.Escape.Meaning
import Phrasebook.Proofs.Report
import Phrasebook.Proofs.Table.LineEnding
import Phrasebook.Proofs.CommandLine.Override
import Phrasebook.Proofs.Markup.Calls
import Phrasebook.Proofs.Scan.Validated
import Phrasebook.Proofs.Config.Search
import Phrasebook.Proofs.Page.Wrapped
import Phrasebook.Proofs.Scope.Handover
import Phrasebook.Proofs.CommandLine.Init
import Phrasebook.Proofs.Markup.Rewritten
import Phrasebook.Proofs.Markup.RawText
import Phrasebook.Proofs.Markup.Slash
import Phrasebook.Proofs.Page.Delegate
import Phrasebook.Proofs.Page.LetterCase
import Phrasebook.Proofs.Page.AttributeTable
import Phrasebook.Proofs.Page.Literals
import Phrasebook.Proofs.Page.Comments
import Phrasebook.Proofs.Table.Hints
import Phrasebook.Proofs.Table.Names
import Phrasebook.Proofs.Table.Groups
import Phrasebook.Proofs.Lexeme.Joined
import Phrasebook.Proofs.Escape.Pieces
import Phrasebook.Proofs.Batch.Shown
import Phrasebook.Proofs.Config.Partial
import Phrasebook.Proofs.Markup.Collapsed
import Phrasebook.Proofs.Page.Filled
import Phrasebook.Proofs.Scan.Lists
import Phrasebook.Proofs.LineIndex
import Phrasebook.Proofs.Table.Entries
import Phrasebook.Proofs.Page.ServerCode
