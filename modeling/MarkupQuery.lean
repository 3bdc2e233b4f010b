import MarkupQuery.Markup.Load
import MarkupQuery.Query.Select
import MarkupQuery.Proofs.Tree.Links
import MarkupQuery.Proofs.Tree.WellLinked
import MarkupQuery.Proofs.Tree.Ancestors
import MarkupQuery.Proofs.Tree.Change
import MarkupQuery.Proofs.Tree.Arena
import MarkupQuery.Proofs.Tree.Forest
import MarkupQuery.Proofs.Tree.Walks
import MarkupQuery.Proofs.Query.Found
import MarkupQuery.Proofs.Query.Targets
import MarkupQuery.Proofs.Query.Listing
import MarkupQuery.Proofs.Query.Meaning
import MarkupQuery.Proofs.Query.IdIndex
import MarkupQuery.Proofs.Query.Backward
import MarkupQuery.Proofs.Text.Reader
import MarkupQuery.Proofs.Selector.Recognize
import MarkupQuery.Proofs.Selector.Grammar
import MarkupQuery.Proofs.Selector.Parse
import MarkupQuery.Proofs.Selector.Pattern
import MarkupQuery.Proofs.Selector.Text
import MarkupQuery.Proofs.Attributes
import MarkupQuery.Proofs.Tree.Attributes
import MarkupQuery.Proofs.Tree.Owners
import MarkupQuery.Proofs.Query.First
import MarkupQuery.Proofs.Tree.Append
import MarkupQuery.Proofs.Tree.FirstIds
import MarkupQuery.Proofs.Markup.Load
import MarkupQuery.Proofs.Tree.Sift
import MarkupQuery.Proofs.Markup.Sift
import MarkupQuery.Proofs.Markup.IdLookup
import MarkupQuery.Proofs.Query.Options
import MarkupQuery.Proofs.Query.Union
import MarkupQuery.Proofs.Query.Correspondence
import MarkupQuery.Proofs.Tree.DocumentOrder
import MarkupQuery.Proofs.Markup.History
import MarkupQuery.Proofs.Query.Covering
import MarkupQuery.Proofs.Query.Scope
import MarkupQuery.Proofs.Query.Removal
import MarkupQuery.Proofs.Query.Respelling
import MarkupQuery.Proofs.Selector.Respelling
import MarkupQuery.Proofs.AttributeList
import MarkupQuery.Proofs.Selector.Simple
import MarkupQuery.Proofs.Tree.Subtrees
import MarkupQuery.Proofs.Tree.Ascent
import MarkupQuery.Proofs.Query.LaterSiblings
import MarkupQuery.Selector.Capture
import MarkupQuery.Proofs.Selector.Longest
import MarkupQuery.Proofs.Selector.Capture
