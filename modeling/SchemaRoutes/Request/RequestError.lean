import SchemaRoutes.Text.Message

/-! # Request errors

Why a request gets no answer, with the status that the client sees.
-/

namespace SchemaRoutes

/-- An error that a handler reports itself. -/
structure HandlerFailure where
  status : Nat
  message : String
  deriving DecidableEq, Repr

namespace HandlerFailure

def internal (message : String) : HandlerFailure := ⟨500, message⟩

/-- For a capability that is declared without more. -/
def notImplemented (capability : String) : HandlerFailure :=
  internal (capability ++ " declared but not implemented")

end HandlerFailure

inductive RequestError where
  | unequipped (name : String)
  | unknownHandler (handler : String)
  | lacksCapability (capability handler : String)
  | cannotFormat (handler : String)
  | parameterMissing (name : String)
  | parameterNotInteger (name value : String)
  | noSuchResource
  | notAList
  | unreadableSeed
  | failed (failure : HandlerFailure)
  deriving DecidableEq, Repr

namespace RequestError

def summary : RequestError → String
  | unequipped name => "controller " ++ name ++ " has not been initialized"
  | unknownHandler handler => handler ++ " controller not implemented"
  | lacksCapability capability handler =>
    capability ++ " not implemented in " ++ handler ++ " controller"
  | cannotFormat handler => "formatResponse not implemented in " ++ handler ++ " controller"
  | parameterMissing name => "missing path parameter " ++ name
  | parameterNotInteger name value =>
    "path parameter " ++ name ++ " must be an integer, got \"" ++ value ++ "\""
  | noSuchResource => "Not found"
  | notAList => "find must return an array"
  | unreadableSeed => "invalid blank object"
  | failed e => e.message

def detail? : RequestError → Option String
  | unreadableSeed => some "not a JSON text"
  | _ => none

def message (e : RequestError) : String := Text.withDetail e.summary e.detail?

def status : RequestError → Nat
  | unknownHandler _ | lacksCapability _ _ | cannotFormat _
  | parameterMissing _ | parameterNotInteger _ _ => 400
  | noSuchResource => 404
  | unequipped _ | notAList | unreadableSeed => 500
  | failed e => e.status

end RequestError

end SchemaRoutes
