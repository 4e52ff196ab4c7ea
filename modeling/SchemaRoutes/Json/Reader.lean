import SchemaRoutes.Json.Basic

/-! # Reading documents

A machine fed one character at a time: a scanner that cuts the text into tokens drives a builder
that holds the open arrays and objects. A repeated key keeps its first place and takes the last
value. Nesting beyond the limit is refused.
-/

namespace SchemaRoutes

inductive Token where
  | beginArray | endArray | beginObject | endObject | colon | comma
  /-- A string, a number or one of the three words. -/
  | leaf (value : Json)

/-- A container whose end is still to come. -/
inductive Opened where
  | array (reversed : List Json)
  | object (members : Members) (key : String)

/-- What may come next. -/
inductive Expected where
  | value
  | valueOrEnd
  | key
  | keyOrEnd
  | colon (key : String)
  | separatorOrEnd
  | nothing (result : Json)

/-- The containers around the next token, innermost first. An object waiting for a key or a
separator is listed with the key last read. -/
structure Builder where
  opened : List Opened
  expected : Expected

namespace Builder

def start : Builder := ⟨[], .value⟩

/-- Hands a finished value to the innermost open container. -/
def complete (value : Json) : List Opened → Builder
  | [] => ⟨[], .nothing value⟩
  | .array reversed :: opened => ⟨.array (value :: reversed) :: opened, .separatorOrEnd⟩
  | .object members key :: opened =>
    ⟨.object (members.insert key value) key :: opened, .separatorOrEnd⟩

def acceptsValue : Expected → Bool
  | .value | .valueOrEnd => true
  | _ => false

def accept (limit : Nat) (b : Builder) : Token → Option Builder
  | .leaf value =>
    match b.expected, value with
    | .value, _ | .valueOrEnd, _ => some (complete value b.opened)
    | .key, .str k | .keyOrEnd, .str k => some ⟨b.opened, .colon k⟩
    | _, _ => none
  | .beginArray =>
    if acceptsValue b.expected && decide (b.opened.length < limit) then
      some ⟨.array [] :: b.opened, .valueOrEnd⟩
    else none
  | .beginObject =>
    if acceptsValue b.expected && decide (b.opened.length < limit) then
      some ⟨.object [] "" :: b.opened, .keyOrEnd⟩
    else none
  | .endArray =>
    match b.expected, b.opened with
    | .valueOrEnd, .array reversed :: opened | .separatorOrEnd, .array reversed :: opened =>
      some (complete (.arr reversed.reverse) opened)
    | _, _ => none
  | .endObject =>
    match b.expected, b.opened with
    | .keyOrEnd, .object members _ :: opened | .separatorOrEnd, .object members _ :: opened =>
      some (complete (.obj members) opened)
    | _, _ => none
  | .colon =>
    match b.expected, b.opened with
    | .colon key, .object members _ :: opened => some ⟨.object members key :: opened, .value⟩
    | _, _ => none
  | .comma =>
    match b.expected, b.opened with
    | .separatorOrEnd, .array _ :: _ => some ⟨b.opened, .value⟩
    | .separatorOrEnd, .object _ _ :: _ => some ⟨b.opened, .key⟩
    | _, _ => none

def result? (b : Builder) : Option Json :=
  match b.expected with
  | .nothing result => some result
  | _ => none

end Builder

/-- How far the token under way has been read; texts are reversed. -/
inductive Scan where
  | between
  | bare (text : List Char)
  | quoted (text : List Char)
  | escape (text : List Char)
  /-- Inside `\u`, with the digits read so far and the first half of a pair, if any. -/
  | unit (text : List Char) (high : Option Nat) (count value : Nat)
  | afterHigh (text : List Char) (high : Nat)
  | escapeAfterHigh (text : List Char) (high : Nat)

namespace Scan

def isBlank (c : Char) : Bool := c == ' ' || c == '\t' || c == '\n' || c == '\r'

def mark? : Char → Option Token
  | '[' => some .beginArray
  | ']' => some .endArray
  | '{' => some .beginObject
  | '}' => some .endObject
  | ':' => some .colon
  | ',' => some .comma
  | _ => none

def bareValue? : List Char → Option Json
  | ['n', 'u', 'l', 'l'] => some .null
  | ['t', 'r', 'u', 'e'] => some (.bool true)
  | ['f', 'a', 'l', 's', 'e'] => some (.bool false)
  | cs => (Number.ofChars? cs).map .num

def hexDigit? (c : Char) : Option Nat :=
  if c.isDigit then some (c.toNat - '0'.toNat)
  else if 'a' ≤ c ∧ c ≤ 'f' then some (c.toNat - 'a'.toNat + 10)
  else if 'A' ≤ c ∧ c ≤ 'F' then some (c.toNat - 'A'.toNat + 10)
  else none

def escaped? : Char → Option Char
  | '"' => some '"'
  | '\\' => some '\\'
  | '/' => some '/'
  | 'b' => some (Char.ofNat 8)
  | 'f' => some (Char.ofNat 12)
  | 'n' => some '\n'
  | 'r' => some '\r'
  | 't' => some '\t'
  | _ => none

def isHigh (unit : Nat) : Bool := decide (0xD800 ≤ unit) && decide (unit < 0xDC00)

def isLow (unit : Nat) : Bool := decide (0xDC00 ≤ unit) && decide (unit < 0xE000)

/-- Ends an escaped unit: halves of a pair come high before low and never alone. -/
def endUnit (text : List Char) (high : Option Nat) (unit : Nat) : Option Scan :=
  match high with
  | some h =>
    if isLow unit then
      some (.quoted (Char.ofNat (0x10000 + (h - 0xD800) * 0x400 + (unit - 0xDC00)) :: text))
    else none
  | none =>
    if isHigh unit then some (.afterHigh text unit)
    else if isLow unit then none
    else some (.quoted (Char.ofNat unit :: text))

/-- Ends a bare word, if one is under way. -/
def flush : Scan → Option (List Token)
  | .between => some []
  | .bare text => (bareValue? text.reverse).map fun v => [.leaf v]
  | _ => none

/-- Takes a character outside strings. -/
def outside (text : List Char) (c : Char) : Option (List Token × Scan) :=
  let pending := if text.isEmpty then Scan.between else .bare text
  if isBlank c then pending.flush.map fun ts => (ts, .between)
  else if c = '"' then pending.flush.map fun ts => (ts, .quoted [])
  else
    match mark? c with
    | some t => pending.flush.map fun ts => (ts ++ [t], .between)
    | none => some ([], .bare (c :: text))

def step : Scan → Char → Option (List Token × Scan)
  | .between, c => outside [] c
  | .bare text, c => outside text c
  | .quoted text, c =>
    if c = '"' then some ([.leaf (.str (String.ofList text.reverse))], .between)
    else if c = '\\' then some ([], .escape text)
    else if c.toNat < 32 then none
    else some ([], .quoted (c :: text))
  | .escape text, c =>
    if c = 'u' then some ([], .unit text none 0 0)
    else (escaped? c).map fun e => ([], .quoted (e :: text))
  | .unit text high count value, c =>
    (hexDigit? c).bind fun d =>
      if count = 3 then (endUnit text high (value * 16 + d)).map ([], ·)
      else some ([], .unit text high (count + 1) (value * 16 + d))
  | .afterHigh text high, c => if c = '\\' then some ([], .escapeAfterHigh text high) else none
  | .escapeAfterHigh text high, c => if c = 'u' then some ([], .unit text (some high) 0 0) else none

end Scan

/-- Scanner and builder together. -/
structure Machine where
  scan : Scan
  builder : Builder

namespace Machine

def start : Machine := ⟨.between, .start⟩

def step (limit : Nat) (m : Machine) (c : Char) : Option Machine := do
  let (tokens, scan) ← m.scan.step c
  let builder ← tokens.foldlM (Builder.accept limit) m.builder
  return ⟨scan, builder⟩

def result? (limit : Nat) (m : Machine) : Option Json := do
  let tokens ← m.scan.flush
  let builder ← tokens.foldlM (Builder.accept limit) m.builder
  builder.result?

end Machine

namespace Json

def readWithin? (limit : Nat) (text : List Char) : Option Json :=
  (text.foldlM (Machine.step limit) .start).bind (Machine.result? limit)

/-- Containers may nest this deep. -/
def nestingLimit : Nat := 127

def read? (text : String) : Option Json := readWithin? nestingLimit text.toList

end Json

end SchemaRoutes
