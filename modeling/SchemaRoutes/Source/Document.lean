import SchemaRoutes.Files.Tree
import SchemaRoutes.Json.Reader
import SchemaRoutes.Source.SourceError

/-! # Loading documents

A document is loaded from a text, a file or a source, which is the path of a file or a URL.
-/

namespace SchemaRoutes

def isUrl (source : String) : Bool :=
  (Text.after? "http://" source).isSome || (Text.after? "https://" source).isSome

def loadText (text : String) : Except SourceError Json :=
  match Json.read? text with
  | some j => .ok j
  | none => .error .notJson

namespace FileTree

def load (t : FileTree) (path : String) : Except SourceError Json :=
  match t.read path with
  | .missing => .error (.notFound path)
  | .unreadable => .error (.unreadable path)
  | .text text => loadText text

/-- A source is a file, or a URL; nothing is fetched, so no URL is found. -/
def loadSource (t : FileTree) (source : String) : Except SourceError Json :=
  if isUrl source then .error (.notFound source) else t.load source

end FileTree

end SchemaRoutes
