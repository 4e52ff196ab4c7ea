/-! # Splitting and replacing text

Text cut at every occurrence of a character; the parts joined again by that character are the text.
Replacement goes from left to right and does not look at what it has put in.
-/

namespace SchemaRoutes.Text

def splitChars (sep : Char) : List Char → List (List Char)
  | [] => [[]]
  | c :: cs =>
    if c = sep then [] :: splitChars sep cs
    else
      match splitChars sep cs with
      | [] => [[c]]
      | part :: parts => (c :: part) :: parts

def split (sep : Char) (text : String) : List String :=
  (splitChars sep text.toList).map String.ofList

/-- The text before the first occurrence of a character, and the text from there on. -/
def cutAt (sep : Char) (text : String) : String × String :=
  (String.ofList (text.toList.takeWhile (· ≠ sep)),
    String.ofList (text.toList.dropWhile (· ≠ sep)))

/-- The text without occurrences of a character at its end. -/
def trimEnd (c : Char) (text : String) : String :=
  String.ofList (text.toList.reverse.dropWhile (· == c)).reverse

/-- The text without a first piece, if it starts with it. -/
def after? (piece text : String) : Option String :=
  if piece.toList.isPrefixOf text.toList then
    some (String.ofList (text.toList.drop piece.toList.length))
  else none

/-- Puts a text in place of every occurrence of a character. -/
def replaceChar (c : Char) (new : List Char) (text : List Char) : List Char :=
  text.flatMap fun x => if x = c then new else [x]

/-- Puts a character in place of every occurrence of two others in a row. -/
def replacePair (a b new : Char) : List Char → List Char
  | x :: y :: cs =>
    if x = a ∧ y = b then new :: replacePair a b new cs else x :: replacePair a b new (y :: cs)
  | cs => cs

end SchemaRoutes.Text
