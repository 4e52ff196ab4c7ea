import SchemaRoutes.Api.CompileError
import SchemaRoutes.Api.OpenApi
import SchemaRoutes.Json.Pointer

/-! # Merging into a host document

The shape of the document and every collision are checked before anything is inserted.
-/

namespace SchemaRoutes

/-- A change of a host document. When it fails the document is left as it then is. -/
abbrev Edit := ExceptT CompileError (StateM Json)

def Edit.ofExcept {α : Type} : Except CompileError α → Edit α
  | .ok a => pure a
  | .error e => throw e

namespace HostDocument

/-- What a pointer leads to, if anything, is an object. -/
def checkObject (doc : Json) (pointer : String) : Except CompileError Unit :=
  match doc.atPointer? pointer with
  | none | some (.obj _) => .ok ()
  | some _ => .error (.notAnObject (if pointer.isEmpty then "/" else pointer))

/-- Everything that is looked into when merging, from the outside in. -/
def sections : List String := ["", "/paths", "/components", "/components/schemas"]

def checkShape (doc : Json) : Except CompileError Unit := sections.forM (checkObject doc)

/-- Changes the object under a key, which is made when missing. -/
def within (key : String) (change : Members → Except CompileError Members) (ms : Members) :
    Except CompileError Members :=
  match (ms.get? key).getD (.obj []) with
  | .obj inner => (change inner).map fun inner => ms.insert key (.obj inner)
  | _ => .error (.notAnObject ("/" ++ key))

def editRoot (change : Members → Except CompileError Members) : Edit Unit := do
  match ← get with
  | .obj root => set (Json.obj (← Edit.ofExcept (change root)))
  | _ => throw (.notAnObject "/")

end HostDocument

namespace Api

open HostDocument

def checkUrls (api : Api) (doc : Json) : Except CompileError Unit :=
  api.endpoints.forM fun e =>
    if (doc.atPointer? (Pointer.ofKeys ["paths", e.url])).isSome then
      .error (.urlTaken e.url e.handler)
    else .ok ()

def checkNames (api : Api) (doc : Json) : Except CompileError Unit :=
  api.catalog.keys.forM fun name =>
    if (doc.atPointer? (Pointer.ofKeys ["components", "schemas", name])).isSome then
      .error (.nameTaken name)
    else .ok ()

def addTo (api : Api) : Edit Unit := do
  let doc ← get
  Edit.ofExcept (checkShape doc)
  Edit.ofExcept (api.checkUrls doc)
  Edit.ofExcept (api.checkNames doc)
  editRoot (within "paths" fun ms => .ok (api.insertPaths ms))
  editRoot (within "components" (within "schemas" fun ms => .ok (ms.extend api.catalog)))

end Api

end SchemaRoutes
