import SchemaRoutes.Request.Dispatcher
import SchemaRoutes.Host.Install

/-! # Hosts

A host holds dispatchers, installations and registries under their numbers. An installation is a
compiled API with its own dispatcher. A registry collects handlers and makes dispatchers known by
name. A dispatcher is equipped with handlers once.
-/

namespace SchemaRoutes

structure Installation where
  /-- Number of the dispatcher. -/
  dispatcher : Nat
  api : Api

structure Registry (m : Type → Type) where
  handlers : Handlers m
  /-- Dispatchers by the names that endpoints refer to. -/
  dispatchers : List (String × Nat)

structure Host (m : Type → Type) where
  /-- In front of the numbers of names that are made up. -/
  baseName : String
  /-- How many names have been made up. -/
  drawn : Nat
  dispatchers : List (Dispatcher m)
  installations : List Installation
  registries : List (Registry m)

def generatedBaseName : String := "jsonschema-rest-"

def generatedName (baseName : String) (number : Nat) : String := baseName ++ Text.decimal number

/-- Replaces the handler of a name in place, or appends a new one. -/
def Handlers.insert {m : Type → Type} (name : String) (handler : Handler m) :
    Handlers m → Handlers m
  | [] => [(name, handler)]
  | h :: hs => if h.1 == name then (name, handler) :: hs else h :: insert name handler hs

namespace Registry

variable {m : Type → Type}

def empty : Registry m := ⟨[], []⟩

def setHandler (r : Registry m) (name : String) (handler : Handler m) : Registry m :=
  { r with handlers := Handlers.insert name handler r.handlers }

def knows (r : Registry m) (name : String) : Bool := r.dispatchers.any fun d => d.1 == name

end Registry

namespace Host

variable {m : Type → Type}

def empty (baseName : String) : Host m := ⟨baseName, 0, [], [], []⟩

/-- The name asked for, or a new one. -/
def drawName (h : Host m) : Option String → String × Host m
  | some name => (name, h)
  | none => (generatedName h.baseName h.drawn, { h with drawn := h.drawn + 1 })

def addDispatcher (h : Host m) (name : Option String) : Nat × Host m :=
  let (name, h) := h.drawName name
  (h.dispatchers.length, { h with dispatchers := h.dispatchers ++ [.named name] })

def addRegistry (h : Host m) : Nat × Host m :=
  (h.registries.length, { h with registries := h.registries ++ [.empty] })

/-- Compiles roots into a document. A failure uses up the name all the same. -/
def install (h : Host m) (roots : Roots) (name : Option String) (doc : Json) :
    Except CompileError Nat × Json × Host m :=
  let (name, h) := h.drawName name
  match (Api.install name roots).run doc with
  | (.error e, doc) => (.error e, doc, h)
  | (.ok api, doc) =>
    let (dispatcher, h) := h.addDispatcher (some name)
    (.ok h.installations.length, doc,
      { h with installations := h.installations ++ [⟨dispatcher, api⟩] })

def setHandler (h : Host m) (registry : Nat) (name : String) (handler : Handler m) : Host m :=
  { h with registries := h.registries.modify registry (·.setHandler name handler) }

/-- Gives handlers to a dispatcher that has none yet. -/
def equip (h : Host m) (dispatcher : Nat) (handlers : Handlers m) :
    Except CompileError Unit × Host m :=
  match h.dispatchers[dispatcher]? with
  | none => (.ok (), h)
  | some d =>
    if d.isEquipped then (.error (.alreadyEquipped d.name), h)
    else
      let equipped := { d with handlers := some handlers }
      (.ok (), { h with dispatchers := h.dispatchers.set dispatcher equipped })

/-- Equips an installation with the handlers of a registry and makes it known there. -/
def publish (h : Host m) (installation registry : Nat) : Except CompileError Unit × Host m :=
  match h.installations[installation]?, h.registries[registry]? with
  | some i, some r =>
    let name := i.api.dispatcher
    if r.knows name then (.error (.dispatcherTaken name), h)
    else
      match h.equip i.dispatcher r.handlers with
      | (.error e, h) => (.error e, h)
      | (.ok _, h) =>
        let known := { r with dispatchers := r.dispatchers ++ [(name, i.dispatcher)] }
        (.ok (), { h with registries := h.registries.set registry known })
  | _, _ => (.ok (), h)

/-- The number of the dispatcher that a registry knows by a name. -/
def dispatcher? (h : Host m) (registry : Nat) (name : String) : Option Nat :=
  h.registries[registry]?.bind fun r => r.dispatchers.lookup name

end Host

end SchemaRoutes
