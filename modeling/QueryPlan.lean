import QueryPlan.Main
import QueryPlan.Expr.Text
import QueryPlan.Selection.Record
import QueryPlan.Proofs.Plan.Closure
import QueryPlan.Proofs.Plan.FunctionNames
import QueryPlan.Proofs.Plan.JoinOrder
import QueryPlan.Proofs.Plan.ProjectedColumns
import QueryPlan.Proofs.Plan.ReadFields
import QueryPlan.Proofs.Plan.Deeper
import QueryPlan.Proofs.Plan.Nested
import QueryPlan.Proofs.Plan.DepthLimit
import QueryPlan.Proofs.Catalog.WellFormed
import QueryPlan.Proofs.Plan.CatalogLookups
import QueryPlan.Proofs.Filter.Predicates
import QueryPlan.Proofs.Selection.Inlining
import QueryPlan.Proofs.Selection.TopLevel
import QueryPlan.Proofs.Selection.Conditions
import QueryPlan.Proofs.Selection.Substitution
import QueryPlan.Proofs.Plan.SiblingOrder
import QueryPlan.Proofs.Selection.Walk
import QueryPlan.Proofs.Descriptor.ReadBack
import QueryPlan.Proofs.Plan.KeptOptions
import QueryPlan.Proofs.Plan.MergedSelections
import QueryPlan.Proofs.Plan.ResponseAliases
import QueryPlan.Proofs.Plan.FirstRegistered
import QueryPlan.Proofs.Expr.Grammar
import QueryPlan.Proofs.Expr.Strictness
import QueryPlan.Proofs.Filter.Independence
import QueryPlan.Proofs.Filter.Spellings
import QueryPlan.Proofs.Filter.Nulls
import QueryPlan.Proofs.Plan.Conflicts
import QueryPlan.Proofs.Expr.References
import QueryPlan.Proofs.Plan.LevelProjection
import QueryPlan.Proofs.Plan.RootPage
import QueryPlan.Proofs.Filter.Page
import QueryPlan.Proofs.Filter.Order
import QueryPlan.Proofs.Plan.AggregateFilter
import QueryPlan.Proofs.Selection.ReadBack
import QueryPlan.Proofs.Catalog.Metadata
import QueryPlan.Proofs.Expr.Unambiguous
