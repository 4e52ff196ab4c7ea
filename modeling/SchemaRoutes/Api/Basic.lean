import SchemaRoutes.Api.Endpoint

/-! # APIs

The endpoints compiled from one or more schemas, in the order of their sites, and the catalog of
their types.
-/

namespace SchemaRoutes

structure Api where
  dispatcher : String
  endpoints : List Endpoint
  catalog : Members

namespace Api

def empty (dispatcher : String) : Api := ⟨dispatcher, [], []⟩

def endpoint? (api : Api) (url : String) : Option Endpoint :=
  api.endpoints.find? fun e => e.url == url

def entry? (api : Api) (name : String) : Option Json := api.catalog.get? name

end Api

end SchemaRoutes
