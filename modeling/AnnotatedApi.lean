import AnnotatedApi.Annotation.Argument
import AnnotatedApi.Annotation.Catalog
import AnnotatedApi.Annotation.Definition
import AnnotatedApi.Annotation.Document
import AnnotatedApi.Annotation.Restriction
import AnnotatedApi.Annotation.Standard
import AnnotatedApi.Api.Assembly
import AnnotatedApi.Api.Manifest
import AnnotatedApi.CommandLine.Arguments
import AnnotatedApi.CommandLine.Files
import AnnotatedApi.CommandLine.Label
import AnnotatedApi.CommandLine.Report
import AnnotatedApi.CommandLine.Run
import AnnotatedApi.Compilation.Declaration
import AnnotatedApi.Compilation.Document
import AnnotatedApi.Compilation.TypeExpr
import AnnotatedApi.Diagnostic
import AnnotatedApi.Extraction
import AnnotatedApi.Handlers.Applied
import AnnotatedApi.Handlers.Document
import AnnotatedApi.Handlers.Link
import AnnotatedApi.Handlers.Node
import AnnotatedApi.Handlers.Prune
import AnnotatedApi.Handlers.Walk
import AnnotatedApi.Http.Binding
import AnnotatedApi.Http.Route
import AnnotatedApi.Http.Verb
import AnnotatedApi.Json.Numeral
import AnnotatedApi.Json.Printer
import AnnotatedApi.Json.Reader
import AnnotatedApi.Json.Record
import AnnotatedApi.Json.Shape
import AnnotatedApi.Json.Token
import AnnotatedApi.Json.Value
import AnnotatedApi.Main
import AnnotatedApi.Number.Binary64
import AnnotatedApi.Number.Shortest
import AnnotatedApi.Number.Text
import AnnotatedApi.Project
import AnnotatedApi.Proofs.Annotation.Arguments
import AnnotatedApi.Proofs.Annotation.Permission
import AnnotatedApi.Proofs.Annotation.Registration
import AnnotatedApi.Proofs.Annotation.Spelling
import AnnotatedApi.Proofs.Api.ClassOrder
import AnnotatedApi.Proofs.Api.Dispatch
import AnnotatedApi.Proofs.Api.Document
import AnnotatedApi.Proofs.Compilation.Document
import AnnotatedApi.Proofs.Compilation.Writable
import AnnotatedApi.Proofs.Extraction.Accounting
import AnnotatedApi.Proofs.Extraction.Faults
import AnnotatedApi.Proofs.Extraction.Handlers
import AnnotatedApi.Proofs.Extraction.Manifest
import AnnotatedApi.Proofs.Extraction.PathTokens
import AnnotatedApi.Proofs.Extraction.Signature
import AnnotatedApi.Proofs.Extraction.Undefined
import AnnotatedApi.Proofs.Extraction.Unrecognized
import AnnotatedApi.Proofs.Handlers.Metadata
import AnnotatedApi.Proofs.Handlers.Nodes
import AnnotatedApi.Proofs.Handlers.Walk
import AnnotatedApi.Proofs.Http.Grammar
import AnnotatedApi.Proofs.Http.Joining
import AnnotatedApi.Proofs.Http.NormalForm
import AnnotatedApi.Proofs.Http.Tokens
import AnnotatedApi.Proofs.Json.Record
import AnnotatedApi.Proofs.Json.Value
import AnnotatedApi.Proofs.Keeping
import AnnotatedApi.Proofs.Linking.ClassByClass
import AnnotatedApi.Proofs.Linking.Consistency
import AnnotatedApi.Proofs.Linking.LargestSubforest
import AnnotatedApi.Proofs.Linking.Links
import AnnotatedApi.Proofs.Linking.Permutation
import AnnotatedApi.Proofs.Linking.Pruning
import AnnotatedApi.Proofs.Linking.Silence
import AnnotatedApi.Proofs.Lists
import AnnotatedApi.Proofs.Number.Grid
import AnnotatedApi.Proofs.Number.Rounding
import AnnotatedApi.Proofs.Number.Text
import AnnotatedApi.Proofs.Resolution.Calls
import AnnotatedApi.Proofs.Resolution.Dangling
import AnnotatedApi.Proofs.Resolution.Declared
import AnnotatedApi.Proofs.Resolution.Denotation
import AnnotatedApi.Proofs.Resolution.Depth
import AnnotatedApi.Proofs.Resolution.Equations
import AnnotatedApi.Proofs.Resolution.Fault
import AnnotatedApi.Proofs.Resolution.Fields
import AnnotatedApi.Proofs.Resolution.Grounding
import AnnotatedApi.Proofs.Resolution.History
import AnnotatedApi.Proofs.Resolution.Identity
import AnnotatedApi.Proofs.Resolution.Intersection
import AnnotatedApi.Proofs.Resolution.Law
import AnnotatedApi.Proofs.Resolution.Layers
import AnnotatedApi.Proofs.Resolution.Lending
import AnnotatedApi.Proofs.Resolution.Logic
import AnnotatedApi.Proofs.Resolution.Meaning
import AnnotatedApi.Proofs.Resolution.Naming
import AnnotatedApi.Proofs.Resolution.Nesting
import AnnotatedApi.Proofs.Resolution.NormalForm
import AnnotatedApi.Proofs.Resolution.Numbers
import AnnotatedApi.Proofs.Resolution.Objects
import AnnotatedApi.Proofs.Resolution.Origin
import AnnotatedApi.Proofs.Resolution.Recursion
import AnnotatedApi.Proofs.Resolution.Restoring
import AnnotatedApi.Proofs.Resolution.Steady
import AnnotatedApi.Proofs.Resolution.Termination
import AnnotatedApi.Proofs.Resolution.TypeTerm
import AnnotatedApi.Proofs.Resolution.Undefined
import AnnotatedApi.Proofs.Resolution.Uses
import AnnotatedApi.Proofs.Resolution.Verdict
import AnnotatedApi.Proofs.Source.CharRange
import AnnotatedApi.Proofs.Text.Blank
import AnnotatedApi.Proofs.Text.Brackets
import AnnotatedApi.Proofs.Text.Quoted
import AnnotatedApi.Proofs.WireType.BackReferences
import AnnotatedApi.Proofs.WireType.Document
import AnnotatedApi.Proofs.WireType.Equality
import AnnotatedApi.Proofs.WireType.Members
import AnnotatedApi.Proofs.WireType.NormalForm
import AnnotatedApi.Proofs.WireType.OpenReferences
import AnnotatedApi.Proofs.WireType.Parts
import AnnotatedApi.Proofs.WireType.Uncaught
import AnnotatedApi.Proofs.WireType.Union
import AnnotatedApi.Resolve.Cache
import AnnotatedApi.Resolve.Context
import AnnotatedApi.Resolve.Failure
import AnnotatedApi.Resolve.Resolver
import AnnotatedApi.Source.CharRange
import AnnotatedApi.Source.Line
import AnnotatedApi.Source.Span
import AnnotatedApi.Table
import AnnotatedApi.Text.Blank
import AnnotatedApi.Text.Digits
import AnnotatedApi.Text.Hidden
import AnnotatedApi.Text.Quoted
import AnnotatedApi.Text.Width
import AnnotatedApi.Toml.Reader
import AnnotatedApi.Toml.Scalar
import AnnotatedApi.Toml.Text
import AnnotatedApi.Toml.Tree
import AnnotatedApi.WireType.Basic
import AnnotatedApi.WireType.Document
import AnnotatedApi.WireType.Name
