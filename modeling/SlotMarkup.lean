import SlotMarkup.Span
import SlotMarkup.Text.Blank
import SlotMarkup.Text.Lines
import SlotMarkup.Text.Dedent
import SlotMarkup.Text.Place
import SlotMarkup.Slots
import SlotMarkup.Dict
import SlotMarkup.Decimal.Shortest
import SlotMarkup.Decimal.Positional
import SlotMarkup.Json
import SlotMarkup.Value.Basic
import SlotMarkup.Value.Text
import SlotMarkup.Value.Normal
import SlotMarkup.Value.Json
import SlotMarkup.Value.Equality
import SlotMarkup.Value.Census
import SlotMarkup.Token.Basic
import SlotMarkup.Token.Error
import SlotMarkup.Token.Scan
import SlotMarkup.Token.Nested
import SlotMarkup.Token.Attribute
import SlotMarkup.Token.Tag
import SlotMarkup.Token.Document
import SlotMarkup.Markup.Tree
import SlotMarkup.Markup.Cursor
import SlotMarkup.Markup.Head
import SlotMarkup.Markup.Parser
import SlotMarkup.Markup.Attributes
import SlotMarkup.Markup.View
import SlotMarkup.Template.Fill
import SlotMarkup.Template.Basic
import SlotMarkup.Template.Cache
import SlotMarkup.Proofs.SlotToken
import SlotMarkup.Proofs.EncodeFind
import SlotMarkup.Proofs.Words
import SlotMarkup.Proofs.SlotWords
import SlotMarkup.Proofs.ReaderBreaks
import SlotMarkup.Proofs.ReaderEquations
import SlotMarkup.Proofs.ScanMeasure
import SlotMarkup.Proofs.LineGrammar
import SlotMarkup.Proofs.ParserGoals
import SlotMarkup.Proofs.DocumentGrammar
import SlotMarkup.Proofs.ParseOutcome
import SlotMarkup.Proofs.DedentMeasure
import SlotMarkup.Proofs.ParseMeasure
import SlotMarkup.Proofs.TreeMeasure
import SlotMarkup.Proofs.CompileSlots
import SlotMarkup.Proofs.ReaderRewording
import SlotMarkup.Proofs.ScanRewording
import SlotMarkup.Proofs.ParseRewording
import SlotMarkup.Proofs.SlotRewording
import SlotMarkup.Proofs.TreeFilling
import SlotMarkup.Proofs.Interpolation
import SlotMarkup.Proofs.KindGrammar
import SlotMarkup.Proofs.GrammarAcceptance
import SlotMarkup.Proofs.OpeningLines
import SlotMarkup.Proofs.Outline
import SlotMarkup.Proofs.OutlineTokens
import SlotMarkup.Proofs.OutlineItems
import SlotMarkup.Proofs.TokenCover
import SlotMarkup.Proofs.SpanCover
import SlotMarkup.Proofs.ElementLines
import SlotMarkup.Proofs.ElementForest
import SlotMarkup.Proofs.CacheHistory
import SlotMarkup.Proofs.CleanValues
import SlotMarkup.Proofs.MarkupTrees
import SlotMarkup.Proofs.TokenFree
import SlotMarkup.Proofs.DynamicClasses
import SlotMarkup.Proofs.SlotLines
import SlotMarkup.Proofs.RenderedOutline
import SlotMarkup.Proofs.ParsedTrees
import SlotMarkup.Proofs.SlotFreeTrees
import SlotMarkup.Proofs.WellFormedTrees
import SlotMarkup.Proofs.Markers
import SlotMarkup.Proofs.Crlf
import SlotMarkup.Proofs.RelabeledItems
import SlotMarkup.Proofs.RelabeledTrees
import SlotMarkup.Proofs.CrlfReaders
import SlotMarkup.Proofs.CrlfScan
import SlotMarkup.Proofs.LineEndings
import SlotMarkup.Proofs.Flattening
import SlotMarkup.Proofs.ReadingOrder
import SlotMarkup.Proofs.WrittenAttributes
import SlotMarkup.Proofs.SpanTexts
import SlotMarkup.Proofs.ErrorSpans
import SlotMarkup.Proofs.ByteSpelling
import SlotMarkup.Proofs.ByteReaders
import SlotMarkup.Proofs.ByteLines
import SlotMarkup.Proofs.ByteAttributes
import SlotMarkup.Proofs.ByteTags
import SlotMarkup.Proofs.ByteScan
import SlotMarkup.Proofs.SourceSpans
import SlotMarkup.Proofs.Lookahead
import SlotMarkup.Proofs.BlockExpansion
import SlotMarkup.Proofs.Comments
import SlotMarkup.Proofs.LongerTexts
import SlotMarkup.Proofs.AcceptedLines
import SlotMarkup.Proofs.OutlineShapes
import SlotMarkup.Proofs.LongerLines
import SlotMarkup.Proofs.TextBlocks
import SlotMarkup.Proofs.Composition
import SlotMarkup.Proofs.SplitTexts
import SlotMarkup.Proofs.AttributeEntries
import SlotMarkup.Proofs.DedentedLines
import SlotMarkup.Proofs.ShorterTexts
import SlotMarkup.Proofs.BlankLines
import SlotMarkup.Proofs.TokenRanges
import SlotMarkup.Proofs.TokenBytes
import SlotMarkup.Proofs.SlotDependence
import SlotMarkup.Proofs.AttributeExpansion
import SlotMarkup.Proofs.TokensRead
import SlotMarkup.Proofs.TokenWalk
import SlotMarkup.Proofs.NormalForm
import SlotMarkup.Proofs.ShownValues
import SlotMarkup.Proofs.NestedSpans
import SlotMarkup.Proofs.ScanSteps
import SlotMarkup.Proofs.ScanRuns
import SlotMarkup.Proofs.IndentStack
import SlotMarkup.Proofs.IndentErrors
import SlotMarkup.Proofs.CollectedLines
import SlotMarkup.Proofs.CursorRuns
