import Typeahead.Address.Escape
import Typeahead.Catalog.Ancestry
import Typeahead.Catalog.Cache
import Typeahead.Catalog.CoreLibrary
import Typeahead.Catalog.Demand
import Typeahead.Catalog.Loader
import Typeahead.Catalog.Members
import Typeahead.Catalog.Metadata
import Typeahead.Catalog.MetadataJson
import Typeahead.Catalog.Namespaces
import Typeahead.Catalog.References
import Typeahead.Catalog.Resolution
import Typeahead.Catalog.Scan
import Typeahead.Files
import Typeahead.Json.Basic
import Typeahead.Json.Reader
import Typeahead.Json.Writer
import Typeahead.Language
import Typeahead.Lookup.Code
import Typeahead.Lookup.Head
import Typeahead.Lookup.Item
import Typeahead.Lookup.PathHelper
import Typeahead.Lookup.Pattern
import Typeahead.Lookup.Response
import Typeahead.Lookup.Scope
import Typeahead.Lookup.Stage
import Typeahead.Lookup.Walk
import Typeahead.Markup.Completion
import Typeahead.Markup.Dictionary
import Typeahead.Markup.StyleTable
import Typeahead.Markup.Stylesheet
import Typeahead.Markup.Target
import Typeahead.Server.CompletionList
import Typeahead.Server.Message
import Typeahead.Server.Settings
import Typeahead.Server.State
import Typeahead.Source.Chain
import Typeahead.Source.Context
import Typeahead.Source.Declaration
import Typeahead.Source.Directive
import Typeahead.Source.Local
import Typeahead.Source.Member
import Typeahead.Source.Region
import Typeahead.Source.Target
import Typeahead.Source.Token
import Typeahead.Source.TypeRegion
import Typeahead.Source.WrittenType
import Typeahead.Text.Alphanumeric
import Typeahead.Text.BaseLetter
import Typeahead.Text.Blank
import Typeahead.Text.CaseFold
import Typeahead.Text.Cluster
import Typeahead.Text.ClusterClass
import Typeahead.Text.Dotted
import Typeahead.Text.Lines
import Typeahead.Text.Numeral
import Typeahead.Text.Offset
import Typeahead.Text.Place
import Typeahead.Text.Ranges
import Typeahead.TypeName
import Typeahead.Workspace.Document
import Typeahead.Workspace.Store
import Typeahead.Address.Host
import Typeahead.Address.Path
import Typeahead.Address.Basic
import Typeahead.Address.Number
import Typeahead.Address.Punycode
import Typeahead.Proofs.Catalog.Nesting
import Typeahead.Proofs.Text.Place
import Typeahead.Proofs.Lookup.CandidateSet
import Typeahead.Proofs.Lookup.Navigation
import Typeahead.Proofs.Lookup.Hops
import Typeahead.Proofs.Source.TypeBody
import Typeahead.Proofs.Source.BlockScope
import Typeahead.Proofs.Workspace.Generations
import Typeahead.Proofs.Server.Supersession
import Typeahead.Proofs.Server.Rebuilds
import Typeahead.Proofs.Lookup.Noninterference
import Typeahead.Proofs.Restriction.Catalog
import Typeahead.Proofs.Restriction.Head
import Typeahead.Proofs.Restriction.Members
import Typeahead.Proofs.Restriction.Stage
import Typeahead.Proofs.Restriction.Walk
import Typeahead.Proofs.Server.Event
import Typeahead.Proofs.Lookup.DeclaredNames
import Typeahead.Proofs.Text.Boundary
import Typeahead.Proofs.Markup.TypedText
import Typeahead.Proofs.Markup.LastWord
import Typeahead.Proofs.Source.Blanking
import Typeahead.Proofs.Source.Target
import Typeahead.Proofs.Server.Snippets
import Typeahead.Proofs.Server.EditRange
import Typeahead.Proofs.Source.Bytes
import Typeahead.Proofs.Source.ByteScan
import Typeahead.Proofs.Source.ByteTokens
import Typeahead.Proofs.Source.DeclarationSlices
import Typeahead.Proofs.Source.ExpressionSlices
import Typeahead.Proofs.Catalog.NameSlices
import Typeahead.Proofs.Source.TokenSuffix
import Typeahead.Proofs.Source.LocalOrigins
import Typeahead.Proofs.Source.Origins
import Typeahead.Proofs.Source.SpanBounds
import Typeahead.Proofs.Lookup.CodeSlices
import Typeahead.Proofs.Source.Mode
import Typeahead.Proofs.Source.Inside
import Typeahead.Proofs.Lookup.Comments
import Typeahead.Proofs.Source.Contents
import Typeahead.Proofs.Source.LineMarker
import Typeahead.Proofs.Lookup.BlankedText
import Typeahead.Proofs.Lookup.HiddenText
import Typeahead.Proofs.Catalog.TypeTerm
import Typeahead.Proofs.Catalog.AncestryClosure
import Typeahead.Proofs.Catalog.Assignability
import Typeahead.Proofs.Catalog.Inheritance
import Typeahead.Proofs.Catalog.Listing
import Typeahead.Proofs.Catalog.SharedCache
import Typeahead.Proofs.Text.Positions
import Typeahead.Proofs.Source.DirectiveTarget
import Typeahead.Proofs.Lookup.StaticContext
import Typeahead.Proofs.Source.Names
import Typeahead.Proofs.Source.ChainPrefix
import Typeahead.Proofs.Lookup.ReceiverPrefix
import Typeahead.Proofs.Source.MemberChain
import Typeahead.Proofs.Source.Braces
import Typeahead.Proofs.Source.Enclosing
import Typeahead.Proofs.Source.TypeKeywords
import Typeahead.Proofs.Source.ValueSearch
import Typeahead.Proofs.Source.Declarators
import Typeahead.Proofs.Source.LocalDeclarators
import Typeahead.Proofs.Source.HeaderScope
import Typeahead.Proofs.Source.InitializerForm
import Typeahead.Proofs.Lookup.VoidEnd
import Typeahead.Proofs.Lookup.Overloads
import Typeahead.Proofs.Lookup.InheritedHead
import Typeahead.Proofs.Lookup.ElementType
import Typeahead.Proofs.Source.TypeText
import Typeahead.Proofs.Source.BaseClosure
import Typeahead.Proofs.Lookup.TypeHead
import Typeahead.Proofs.Catalog.NestedSpelling
import Typeahead.Proofs.Source.ChainText
import Typeahead.Proofs.Catalog.TypeForm
import Typeahead.Proofs.Catalog.NamespaceTree
import Typeahead.Proofs.Source.Geometry
import Typeahead.Proofs.Source.BeforeCaret
import Typeahead.Proofs.Source.UsingDirectives
import Typeahead.Proofs.Lookup.OverloadMerge
import Typeahead.Proofs.Lookup.TypeIdentifiers
import Typeahead.Proofs.Lookup.TypedPrefix
import Typeahead.Proofs.Source.LiteralLines
import Typeahead.Proofs.Text.Blanks
import Typeahead.Proofs.Text.LastOccurrence
import Typeahead.Proofs.Markup.TagName
import Typeahead.Proofs.Markup.QuotedValues
import Typeahead.Proofs.Markup.StyleComments
import Typeahead.Proofs.Source.Matching
import Typeahead.Proofs.Source.BlockStack
import Typeahead.Proofs.Source.SpanOrder
import Typeahead.Proofs.Lookup.Inference
import Typeahead.Proofs.Markup.TagScan
import Typeahead.Proofs.Markup.Forest
import Typeahead.Proofs.Server.Ranks
import Typeahead.Proofs.Server.Pairing
