import SchemaRoutes.Api.Basic
import SchemaRoutes.Api.Compile
import SchemaRoutes.Api.CompileError
import SchemaRoutes.Api.Endpoint
import SchemaRoutes.Api.Merge
import SchemaRoutes.Api.OpenApi
import SchemaRoutes.Api.Site
import SchemaRoutes.CommandLine.Arguments
import SchemaRoutes.CommandLine.Run
import SchemaRoutes.Files.Path
import SchemaRoutes.Files.Tree
import SchemaRoutes.Host.Install
import SchemaRoutes.Host.Manifest
import SchemaRoutes.Host.Roots
import SchemaRoutes.Host.State
import SchemaRoutes.Json.Basic
import SchemaRoutes.Json.Decimal
import SchemaRoutes.Json.Double
import SchemaRoutes.Json.Number
import SchemaRoutes.Json.Pointer
import SchemaRoutes.Json.Reader
import SchemaRoutes.Json.Text
import SchemaRoutes.Main
import SchemaRoutes.Proofs.Api.BaseUrl
import SchemaRoutes.Proofs.Api.Catalog
import SchemaRoutes.Proofs.Api.Compile
import SchemaRoutes.Proofs.Api.Divergence
import SchemaRoutes.Proofs.Api.Link
import SchemaRoutes.Proofs.Api.Merge
import SchemaRoutes.Proofs.Api.OpenApi
import SchemaRoutes.Proofs.Api.Outcome
import SchemaRoutes.Proofs.Api.Reference
import SchemaRoutes.Proofs.Api.Roots
import SchemaRoutes.Proofs.Api.Trail
import SchemaRoutes.Proofs.Api.Walk
import SchemaRoutes.Proofs.Checks
import SchemaRoutes.Proofs.Files.Path
import SchemaRoutes.Proofs.Files.Tree
import SchemaRoutes.Proofs.Host.Install
import SchemaRoutes.Proofs.Host.Run
import SchemaRoutes.Proofs.Json.Decimal
import SchemaRoutes.Proofs.Json.Double
import SchemaRoutes.Proofs.Json.Members
import SchemaRoutes.Proofs.Json.Number
import SchemaRoutes.Proofs.Json.Pointer
import SchemaRoutes.Proofs.Json.Reader
import SchemaRoutes.Proofs.Request.Dispatcher
import SchemaRoutes.Proofs.Request.Locator
import SchemaRoutes.Proofs.Request.Route
import SchemaRoutes.Proofs.Request.Seed
import SchemaRoutes.Proofs.Schema.CatalogEntry
import SchemaRoutes.Proofs.Schema.Kind
import SchemaRoutes.Proofs.Schema.Seed
import SchemaRoutes.Proofs.Schema.Slot
import SchemaRoutes.Proofs.Schema.Traversal
import SchemaRoutes.Proofs.Source.Expansion
import SchemaRoutes.Proofs.Source.Places
import SchemaRoutes.Proofs.Source.Reference
import SchemaRoutes.Proofs.Text.Numeral
import SchemaRoutes.Proofs.Text.Split
import SchemaRoutes.Request.Dispatcher
import SchemaRoutes.Request.Locator
import SchemaRoutes.Request.RequestError
import SchemaRoutes.Request.Route
import SchemaRoutes.Schema.CatalogEntry
import SchemaRoutes.Schema.Draft
import SchemaRoutes.Schema.Grammar
import SchemaRoutes.Schema.Kind
import SchemaRoutes.Schema.Seed
import SchemaRoutes.Schema.Slot
import SchemaRoutes.Schema.Traversal
import SchemaRoutes.Schema.Validity
import SchemaRoutes.Source.Document
import SchemaRoutes.Source.Reference
import SchemaRoutes.Source.SourceError
import SchemaRoutes.Text.Message
import SchemaRoutes.Text.Numeral
import SchemaRoutes.Text.Split
import SchemaRoutes.Text.UriReference
import SchemaRoutes.Proofs.Api.Parameter
import SchemaRoutes.Proofs.Api.Operation
import SchemaRoutes.Proofs.Json.WellFormed
import SchemaRoutes.Proofs.Request.Body
import SchemaRoutes.Proofs.Files.Write
import SchemaRoutes.Proofs.CommandLine.Run
import SchemaRoutes.Proofs.Schema.Assembly
import SchemaRoutes.Proofs.Schema.SeedKeys
import SchemaRoutes.Proofs.Api.Succession
import SchemaRoutes.Proofs.CommandLine.Arguments
import SchemaRoutes.Proofs.CommandLine.Input
import SchemaRoutes.Proofs.Schema.SeedDefaults
import SchemaRoutes.Proofs.Source.Termination
import SchemaRoutes.Proofs.Source.Inlined
import SchemaRoutes.Proofs.Source.BareReference
import SchemaRoutes.Proofs.Schema.Keywords
import SchemaRoutes.Proofs.Schema.Transcript
import SchemaRoutes.Proofs.Schema.Bounds
import SchemaRoutes.Proofs.Schema.EntryParts
import SchemaRoutes.Proofs.Schema.Acceptance
import SchemaRoutes.Proofs.Schema.Projection
import SchemaRoutes.Proofs.Api.Unambiguous
import SchemaRoutes.Proofs.Source.Location
import SchemaRoutes.Proofs.Files.Moved
import SchemaRoutes.Proofs.Source.Moved
import SchemaRoutes.Proofs.Host.Moved
import SchemaRoutes.Proofs.Host.Version
import SchemaRoutes.Proofs.Schema.Refill
import SchemaRoutes.Proofs.Schema.Calls
