import Workers.Wire.Basic
/-! # The text of structured data

JSON.  A text is cut into tokens, and a reader takes the tokens one by one, with the containers
that are still open on a stack; so nesting costs no recursion.  Written text has no blanks.
-/
namespace Workers.Wire

/-- A bracket, brace, comma or colon, or a whole item without parts. -/
inductive Token where
  | mark (c : Char)
  | leaf (w : Wire)

def isBlank (c : Char) : Bool := c = ' ' || c = '\n' || c = '\r' || c = '\t'

def isMark (c : Char) : Bool := "[]\x7b\x7d,:".toList.contains c

/-- What names and numbers are made of. -/
def isWord (c : Char) : Bool := c.isAlphanum || c = '-' || c = '+' || c = '.'

def hexDigit? (c : Char) : Option Nat :=
  if c.isDigit then some (c.toNat - 48)
  else if 'a' ≤ c ∧ c ≤ 'f' then some (c.toNat - 87)
  else if 'A' ≤ c ∧ c ≤ 'F' then some (c.toNat - 55)
  else none

def hex? (digits : List Char) : Option Nat :=
  digits.foldlM (fun n c => (hexDigit? c).map (16 * n + ·)) 0

def escaped? : Char → Option Char
  | '"' => some '"'
  | '\\' => some '\\'
  | '/' => some '/'
  | 'b' => some '\x08'
  | 'f' => some '\x0c'
  | 'n' => some '\n'
  | 'r' => some '\r'
  | 't' => some '\t'
  | _ => none

def paired? (high low : Nat) : Option Char :=
  if 0xD800 ≤ high ∧ high < 0xDC00 ∧ 0xDC00 ≤ low ∧ low < 0xE000 then
    some (Char.ofNat (0x10000 + (high - 0xD800) * 0x400 + (low - 0xDC00)))
  else none

/-- Reads up to the closing quote, onto what was read before; gives what follows the quote. -/
def unquote (before : List Char) : List Char → Option (String × List Char)
  | '"' :: rest => some (String.ofList before.reverse,rest)
  | '\\' :: 'u' :: a :: b :: c :: d :: rest =>
    match hex? [a,b,c,d] with
    | none => none
    | some n =>
      if n < 0xD800 ∨ 0xE000 ≤ n then unquote (Char.ofNat n :: before) rest
      else
        match rest with
        | '\\' :: 'u' :: a :: b :: c :: d :: rest =>
          match (hex? [a,b,c,d]).bind (paired? n) with
          | some c => unquote (c :: before) rest
          | none => none
        | _ => none
  | '\\' :: c :: rest =>
    match escaped? c with
    | some c => unquote (c :: before) rest
    | none => none
  | c :: rest => unquote (c :: before) rest
  | [] => none

theorem length_of_unquote {before text rest : List Char} {s : String}
    (h : unquote before text = some (s,rest)) : rest.length < text.length := by
  fun_induction unquote before text <;> simp_all <;> omega

/-- The item that a word stands for. -/
def ofWord? (word : List Char) : Option Wire :=
  match String.ofList word with
  | "null" => some .null
  | "true" => some (.boolean true)
  | "false" => some (.boolean false)
  | numeral =>
    match word with
    | c :: _ =>
      if c.isDigit || c = '-' then
        match numeral.toInt? with
        | some 0 => some (if c = '-' then .fraction numeral else .integer 0)
        | some n => some (.integer n)
        | none => some (.fraction numeral)
      else none
    | [] => none

/-- Cuts a text into tokens, behind those cut before, last first. -/
def tokens (before : List Token) : List Char → Option (List Token)
  | [] => some before.reverse
  | c :: text =>
    if isBlank c then tokens before text
    else if isMark c then tokens (.mark c :: before) text
    else if c = '"' then
      match _h : unquote [] text with
      | some (s,rest) => tokens (.leaf (.string s) :: before) rest
      | none => none
    else
      match ofWord? (c :: text.takeWhile isWord) with
      | some w => tokens (.leaf w :: before) (text.dropWhile isWord)
      | none => none
termination_by text => text.length
decreasing_by
  · simp
  · simp
  · have := length_of_unquote ‹unquote [] text = some (s,rest)›
    simp
    omega
  · have := (List.dropWhile_sublist isWord (l := text)).length_le
    simp
    omega

/-- A container that is not closed yet, its contents last first. -/
inductive Open where
  | array (items : List Wire)
  | object (fields : List (String × Wire)) (key : String)

inductive Place where
  | item
  | firstItem
  | key
  | firstKey
  | colon
  | afterItem

structure Reader where
  place : Place := .item
  containers : List Open := []
  whole : Option Wire := none

namespace Reader

/-- Puts a finished item into the innermost container. -/
def put (w : Wire) : List Open → Option Reader
  | [] => some { place := .afterItem, whole := some w }
  | .array items :: outer =>
    some { place := .afterItem, containers := .array (w :: items) :: outer }
  | .object fields key :: outer =>
    some { place := .afterItem, containers := .object ((key,w) :: fields) key :: outer }

def close (c : Char) : List Open → Option Reader
  | .array items :: outer => if c = ']' then put (.array items.reverse) outer else none
  | .object fields _ :: outer => if c = '\x7d' then put (.object fields.reverse) outer else none
  | [] => none

/-- Takes a token where an item is due. -/
def item (t : Token) (containers : List Open) : Option Reader :=
  match t with
  | .leaf w => put w containers
  | .mark '[' => some { place := .firstItem, containers := .array [] :: containers }
  | .mark '\x7b' => some { place := .firstKey, containers := .object [] "" :: containers }
  | .mark _ => none

/-- Takes a token where a key is due. -/
def key (t : Token) (containers : List Open) : Option Reader :=
  match t, containers with
  | .leaf (.string key), .object fields _ :: outer =>
    some { place := .colon, containers := .object fields key :: outer }
  | _, _ => none

def take (r : Reader) (t : Token) : Option Reader :=
  match r.place, t with
  | .item, t => item t r.containers
  | .firstItem, .mark ']' => close ']' r.containers
  | .firstItem, t => item t r.containers
  | .key, t => key t r.containers
  | .firstKey, .mark '\x7d' => close '\x7d' r.containers
  | .firstKey, t => key t r.containers
  | .colon, .mark ':' => some { r with place := .item }
  | .colon, _ => none
  | .afterItem, .mark ',' =>
    match r.containers with
    | .array _ :: _ => some { r with place := .item }
    | .object _ _ :: _ => some { r with place := .key }
    | [] => none
  | .afterItem, .mark c => close c r.containers
  | .afterItem, .leaf _ => none

end Reader

def ofText? (text : String) : Option Wire := do
  let r ← (← tokens [] text.toList).foldlM Reader.take {}
  r.whole

def hexPair (n : Nat) : List Char := [Nat.digitChar (n / 16 % 16),Nat.digitChar (n % 16)]

def quotedChar (c : Char) : List Char :=
  if c = '"' then ['\\','"']
  else if c = '\\' then ['\\','\\']
  else if c.toNat < 32 then ['\\','u','0','0'] ++ hexPair c.toNat
  else [c]

def quote (s : String) : String := "\"" ++ String.ofList (s.toList.flatMap quotedChar) ++ "\""

mutual

def text : Wire → String
  | null => "null"
  | boolean b => toString b
  | integer n => toString n
  | fraction numeral => numeral
  | string s => quote s
  | array items => "[" ++ String.intercalate "," (itemTexts items) ++ "]"
  | object fields => "\x7b" ++ String.intercalate "," (fieldTexts fields) ++ "\x7d"

def itemTexts : List Wire → List String
  | [] => []
  | w :: rest => w.text :: itemTexts rest

def fieldTexts : List (String × Wire) → List String
  | [] => []
  | (key,w) :: rest => (quote key ++ ":" ++ w.text) :: fieldTexts rest

end

end Workers.Wire
