import SchemaRoutes.Request.Locator
import SchemaRoutes.Request.Route
import SchemaRoutes.Json.Reader

/-! # Dispatchers

A dispatcher answers requests by the handler that the route names. Handlers may have effects of a
monad `m`; none of them is called before every check of the request has passed.
-/

namespace SchemaRoutes

/-- What a handler may declare that it can do. -/
inductive Capability where
  | get | update | remove | create | find | callOperation | formatResponse
  deriving DecidableEq, Repr

namespace Capability

def name : Capability → String
  | get => "get"
  | update => "update"
  | remove => "remove"
  | create => "create"
  | find => "find"
  | callOperation => "callOperation"
  | formatResponse => "formatResponse"

end Capability

structure Request where
  params : Parameters
  body : Option Json
  /-- Set before a handler sees the request. -/
  locator : Locator

structure Response where
  status : Nat
  body : Option Json

/-- Storage and logic behind one kind of resource. -/
structure Handler (m : Type → Type) where
  capabilities : List Capability
  call : Capability → Request → m (Except HandlerFailure (Option Json))
  /-- Turns a stored item into what clients see. -/
  format : Request → Json → m (Except HandlerFailure Json)

abbrev Handlers (m : Type → Type) := List (String × Handler m)

/-- Without handlers until it is equipped. -/
structure Dispatcher (m : Type → Type) where
  name : String
  handlers : Option (Handlers m)

/-- What a client may ask for. -/
inductive Action where
  | resource (action : ResourceAction)
  | custom
  deriving DecidableEq, Repr

namespace Action

def capability : Action → Capability
  | resource .getItem => .get
  | resource .patchItem | resource .putItem => .update
  | resource .deleteItem => .remove
  | resource .getItems => .find
  | resource .postItems => .create
  | custom => .callOperation

/-- Whether the body is laid over the seed of the route. -/
def startsFromSeed : Action → Bool
  | resource .putItem | resource .postItems | custom => true
  | _ => false

end Action

namespace Dispatcher

variable {m : Type → Type}

def named (name : String) : Dispatcher m := ⟨name, none⟩

def isEquipped (d : Dispatcher m) : Bool := d.handlers.isSome

/-- The handler of a name, if it is able to answer. -/
def handler (d : Dispatcher m) (name : String) (capability : Capability) :
    Except RequestError (Handler m) :=
  match d.handlers with
  | none => .error (.unequipped d.name)
  | some handlers =>
    match handlers.lookup name with
    | none => .error (.unknownHandler name)
    | some h =>
      if capability ∉ h.capabilities then .error (.lacksCapability capability.name name)
      else if .formatResponse ∉ h.capabilities then .error (.cannotFormat name)
      else .ok h

/-- Members of the body win over those of the seed; any other body replaces the seed. -/
def overSeed (seedText : String) (body : Option Json) : Except RequestError Json :=
  match Json.read? seedText with
  | none => .error .unreadableSeed
  | some seed =>
    match seed, body with
    | .obj seed, some (.obj body) => .ok (.obj (Members.extend seed body))
    | _, some body => .ok body
    | seed, none => .ok seed

/-- The handler for a request, and the request as that handler sees it. -/
def ready (d : Dispatcher m) (route : Route) (action : Action) (request : Request) :
    Except RequestError (Handler m × Request) := do
  let handler ← d.handler route.handler action.capability
  let locator ← Locator.ofTemplate route.template request.params
  let request := { request with locator }
  if action.startsFromSeed then
    let body ← overSeed (route.seed.getD "\x7b\x7d") request.body
    return (handler, { request with body := some body })
  else return (handler, request)

/-- The item that a handler has found. -/
def found : Except HandlerFailure (Option Json) → Except RequestError Json
  | .error e => .error (.failed e)
  | .ok none | .ok (some .null) => .error .noSuchResource
  | .ok (some item) => .ok item

variable [Monad m]

def formatted (h : Handler m) (request : Request) (item : Json) :
    m (Except RequestError Json) := do
  match ← h.format request item with
  | .ok item => return .ok item
  | .error e => return .error (.failed e)

/-- Formats items in order up to the first failure. -/
def formattedAll (h : Handler m) (request : Request) :
    List Json → m (Except RequestError (List Json))
  | [] => return .ok []
  | item :: items => do
    match ← formatted h request item with
    | .error e => return .error e
    | .ok item =>
      match ← formattedAll h request items with
      | .error e => return .error e
      | .ok items => return .ok (item :: items)

/-- The response made of the item that was found. -/
def respond (h : Handler m) (action : Action) (request : Request) (item : Json) :
    m (Except RequestError Response) :=
  match action with
  | .resource .deleteItem => return .ok ⟨204, none⟩
  | .resource .getItems =>
    match item with
    | .arr items => do
      match ← formattedAll h request items with
      | .ok items => return .ok ⟨200, some (.arr items)⟩
      | .error e => return .error e
    | _ => return .error .notAList
  | .resource .postItems => do
    match ← formatted h request item with
    | .ok item => return .ok ⟨201, some item⟩
    | .error e => return .error e
  | _ => do
    match ← formatted h request item with
    | .ok item => return .ok ⟨200, some item⟩
    | .error e => return .error e

def answer (d : Dispatcher m) (route : Route) (action : Action) (request : Request) :
    m (Except RequestError Response) :=
  match d.ready route action request with
  | .error e => return .error e
  | .ok (h, request) => do
    match found (← h.call action.capability request) with
    | .error e => return .error e
    | .ok item => respond h action request item

end Dispatcher

end SchemaRoutes
