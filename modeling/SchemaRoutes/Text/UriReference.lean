import SchemaRoutes.Text.Split

/-! # URI references

The generic syntax of URIs and of references relative to them, over ASCII. Of a base only those
properties are kept that decide whether a reference can be resolved against it.
-/

namespace SchemaRoutes

structure UriReference where
  scheme : Option (List Char)
  authority : Option (List Char)
  path : List Char
  query : Option (List Char)
  fragment : Option (List Char)
  deriving DecidableEq, Repr

namespace UriReference

def isUnreserved (c : Char) : Bool := c.isAlphanum || "-._~".toList.contains c

def isDelimiter (c : Char) : Bool := "!$&'()*+,;=".toList.contains c

def isNameChar (c : Char) : Bool := isUnreserved c || isDelimiter c

def isUserChar (c : Char) : Bool := isNameChar c || c == ':'

def isPathChar (c : Char) : Bool := isUserChar c || c == '@' || c == '/'

def isQueryChar (c : Char) : Bool := isPathChar c || c == '?'

def isHexDigit (c : Char) : Bool :=
  c.isDigit || ("abcdefABCDEF".toList.contains c)

/-- Only allowed characters, and percent signs with two hexadecimal digits. -/
def isSpelt (allowed : Char → Bool) : List Char → Bool
  | '%' :: a :: b :: cs => isHexDigit a && isHexDigit b && isSpelt allowed cs
  | c :: cs => allowed c && isSpelt allowed cs
  | [] => true

/-- The text before a character, and the text after it if it occurs. -/
def cut (c : Char) (cs : List Char) : List Char × Option (List Char) :=
  (cs.takeWhile (· ≠ c), (cs.dropWhile (· ≠ c)).tail?)

def isScheme : List Char → Bool
  | c :: cs => c.isAlpha && cs.all fun c => c.isAlphanum || c == '+' || c == '-' || c == '.'
  | [] => false

def isOctet (cs : List Char) : Bool :=
  cs.all Char.isDigit && !(1 < cs.length && cs.head? == some '0') && !cs.isEmpty &&
    decide (cs.length ≤ 3) && decide (Nat.ofDigitChars 10 cs 0 ≤ 255)

def isDottedAddress (cs : List Char) : Bool :=
  let octets := Text.splitChars '.' cs
  octets.length == 4 && octets.all isOctet

def isGroup (cs : List Char) : Bool :=
  !cs.isEmpty && decide (cs.length ≤ 4) && cs.all isHexDigit

/-- How many groups of 16 bits are written; the last two may be a dotted address. -/
def groupCount? : List (List Char) → Option Nat
  | [] => some 0
  | [last] => if isGroup last then some 1 else if isDottedAddress last then some 2 else none
  | group :: rest => if isGroup group then (groupCount? rest).map (· + 1) else none

def groups (cs : List Char) : List (List Char) :=
  if cs.isEmpty then [] else Text.splitChars ':' cs

/-- The text before the first double colon, and the text after it if it occurs. -/
def cutDoubleColon : List Char → List Char × Option (List Char)
  | ':' :: ':' :: cs => ([], some cs)
  | c :: cs => (c :: (cutDoubleColon cs).1, (cutDoubleColon cs).2)
  | [] => ([], none)

/-- Eight groups, of which a double colon stands for one or more. -/
def isGroupedAddress (cs : List Char) : Bool :=
  match cutDoubleColon cs with
  | (whole, none) => groupCount? (groups whole) == some 8
  | (left, some right) =>
    (groups left).all isGroup &&
      (groupCount? (groups right)).any fun n => decide ((groups left).length + n ≤ 7)

def isFutureAddress : List Char → Bool
  | v :: cs =>
    match cut '.' cs with
    | (version, some rest) =>
      (v == 'v' || v == 'V') && !version.isEmpty && version.all isHexDigit &&
        !rest.isEmpty && rest.all isUserChar
    | _ => false
  | [] => false

def isPort : List Char → Bool
  | [] => true
  | c :: digits => c == ':' && digits.all Char.isDigit

def isHost : List Char → Bool
  | '[' :: cs =>
    match cut ']' cs with
    | (address, some port) => (isGroupedAddress address || isFutureAddress address) && isPort port
    | _ => false
  | cs => isSpelt isNameChar (cs.takeWhile (· ≠ ':')) && isPort (cs.dropWhile (· ≠ ':'))

def isAuthority (cs : List Char) : Bool :=
  match cut '@' cs with
  | (user, some host) => isSpelt isUserChar user && isHost host
  | (host, none) => isHost host

/-- Cuts off the scheme. A colon in the first segment always ends one. -/
def cutScheme? (cs : List Char) : Option (Option (List Char) × List Char) :=
  let head := cs.takeWhile fun c => c ≠ ':' && c ≠ '/'
  match cs.drop head.length with
  | ':' :: rest => if isScheme head then some (some head, rest) else none
  | _ => some (none, cs)

def cutAuthority : List Char → Option (List Char) × List Char
  | '/' :: '/' :: cs => (some (cs.takeWhile (· ≠ '/')), cs.dropWhile (· ≠ '/'))
  | cs => (none, cs)

def isWellFormed (r : UriReference) : Bool :=
  r.authority.all isAuthority && isSpelt isPathChar r.path && r.query.all (isSpelt isQueryChar) &&
    r.fragment.all (isSpelt isQueryChar)

def parse? (text : String) : Option UriReference := do
  let (front, fragment) := cut '#' text.toList
  let (front, query) := cut '?' front
  let (scheme, rest) ← cutScheme? front
  let (authority, path) := cutAuthority rest
  let r : UriReference := ⟨scheme, authority, path, query, fragment⟩
  if r.isWellFormed then some r else none

/-- No authority, and a path that does not start at a root. -/
def isRootless (r : UriReference) : Bool := r.authority.isNone && r.path.head? != some '/'

end UriReference

def isUriReference (text : String) : Bool := (UriReference.parse? text).isSome

/-- A reference with a scheme. -/
def isUri (text : String) : Bool := (UriReference.parse? text).any fun r => r.scheme.isSome

/-- What of a URI matters to the references that are resolved against it. -/
structure BaseUri where
  hasFragment : Bool
  isRootless : Bool
  deriving DecidableEq, Repr

namespace BaseUri

/-- A base with a root and without a fragment. -/
def plain : BaseUri := ⟨false, false⟩

/-- Resolves a reference. A base with a fragment resolves none, and a rootless one only what brings
a scheme or is nothing but a fragment. -/
def resolve? (base : BaseUri) (text : String) : Option BaseUri := do
  let r ← UriReference.parse? text
  let fragment := r.fragment.isSome
  if base.hasFragment then none
  else if r.scheme.isSome then some ⟨fragment, r.isRootless⟩
  else if !base.isRootless then some ⟨fragment, false⟩
  else if text.isEmpty || text.toList.head? == some '#' then some ⟨fragment, true⟩
  else none

end BaseUri

end SchemaRoutes
