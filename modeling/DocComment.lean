import DocComment.Main
import DocComment.Node.Display
import DocComment.Proofs.Coverage
import DocComment.Proofs.Openers
import DocComment.Proofs.InlineSource
import DocComment.Proofs.Fidelity
import DocComment.Proofs.HtmlGrammar
import DocComment.Proofs.TreeShape
import DocComment.Proofs.HtmlDecoding
import DocComment.Proofs.UrlLocality
import DocComment.Proofs.LineBreaks
import DocComment.Proofs.Lines
import DocComment.Proofs.Layout
import DocComment.Proofs.BlockStructure
import DocComment.Proofs.BlockHtml
import DocComment.Proofs.Composition
import DocComment.Proofs.SourceRounds
import DocComment.Proofs.SourceCoverage
import DocComment.Proofs.SourceIssues
import DocComment.Proofs.LineComments
import DocComment.Proofs.BlockComments
import DocComment.Proofs.LongestMatch
import DocComment.Proofs.CodeSpans
import DocComment.Proofs.InlineMarkup
import DocComment.Proofs.BlockContent
import DocComment.Proofs.CarriageReturns
import DocComment.Proofs.NamedLinks
import DocComment.Proofs.CachedSearch
import DocComment.Proofs.LineFeeds
import DocComment.Proofs.NormalPasses
import DocComment.Proofs.LineFeedTokens
import DocComment.Proofs.JoinedPieces
import DocComment.Proofs.HtmlEscaping
import DocComment.Proofs.JsonListings
import DocComment.Proofs.CompactForms
import DocComment.Proofs.CommandLines
import DocComment.Proofs.WordBoundaries
import DocComment.Proofs.SchemeGuard
