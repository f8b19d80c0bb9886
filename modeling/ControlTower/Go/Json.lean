import Mathlib.Data.List.Basic

/-! JSON texts, and the tokens that a decoder reads from them.

A `Text` keeps what a text spells out, escapes included; only white space is left out. The
decoder hands on strings as decoded, and elides commas and colons. -/
namespace ControlTower.Go.Json

/-- A piece of a string literal: a character as it is, one behind a backslash, `\uXXXX`, or
a byte that is no UTF-8. -/
inductive Piece
  | plain (c : Char)
  | escaped (c : Char)
  | unicode (code : Fin 65536)
  | invalid (byte : UInt8)
  deriving DecidableEq

/-- The character that stands for a surrogate without its half, and for an invalid byte. -/
def replacement : Char := Char.ofNat 0xFFFD

def unescape : Char → Char
  | 'b' => '\x08'
  | 'f' => '\x0c'
  | 'n' => '\n'
  | 'r' => '\r'
  | 't' => '\t'
  | c => c

/-- `unquote`. -/
def decode : List Piece → List Char
  | [] => []
  | .plain c :: rest => c :: decode rest
  | .escaped c :: rest => unescape c :: decode rest
  | .invalid _ :: rest => replacement :: decode rest
  | .unicode high :: .unicode low :: rest =>
    if 0xD800 ≤ high.val ∧ high.val < 0xDC00 ∧ 0xDC00 ≤ low.val ∧ low.val < 0xE000 then
      Char.ofNat ((high.val - 0xD800) * 1024 + (low.val - 0xDC00) + 0x10000) :: decode rest
    else (if 0xD800 ≤ high.val ∧ high.val < 0xE000 then replacement else Char.ofNat high.val) :: decode (.unicode low :: rest)
  | .unicode code :: rest => (if 0xD800 ≤ code.val ∧ code.val < 0xE000 then replacement else Char.ofNat code.val) :: decode rest

example : decode [.unicode 0x61] = ['a'] ∧ decode [.unicode 0xD83D, .unicode 0xDE00] = ['😀'] ∧
    decode [.unicode 0xD83D, .plain 'a'] = [replacement, 'a'] := by decide

inductive Text
  | null
  | bool (b : Bool)
  | number (literal : List Char)
  | string (literal : List Piece)
  | array (items : List Text)
  | object (members : List (List Piece × Text))

namespace Text

/-- The values right inside a value. -/
def children : Text → List Text
  | .array items => items
  | .object members => members.map Prod.snd
  | _ => []

/-- The decoded keys of an object. -/
def keys : Text → List (List Char)
  | .object members => members.map fun m => decode m.1
  | _ => []

/-- A value at a depth inside another, which is itself at depth 0. -/
inductive At : Nat → Text → Text → Prop
  | root (t : Text) : At 0 t t
  | child {depth : Nat} {t inner outer : Text} (h : inner ∈ outer.children) (hat : At depth t inner) : At (depth + 1) t outer

end Text

/-! ### Tokens -/

inductive Delim
  | openObject
  | closeObject
  | openArray
  | closeArray
  deriving DecidableEq

inductive Token
  | delim (d : Delim)
  | null
  | bool (b : Bool)
  | number (literal : List Char)
  | string (s : List Char)
  deriving DecidableEq

namespace Text

mutual

/-- The tokens of a value. -/
def tokens : Text → List Token
  | .null => [.null]
  | .bool b => [.bool b]
  | .number literal => [.number literal]
  | .string literal => [.string (decode literal)]
  | .array items => .delim .openArray :: (itemTokens items ++ [.delim .closeArray])
  | .object members => .delim .openObject :: (memberTokens members ++ [.delim .closeObject])

def itemTokens : List Text → List Token
  | [] => []
  | t :: rest => t.tokens ++ itemTokens rest

def memberTokens : List (List Piece × Text) → List Token
  | [] => []
  | (key, t) :: rest => .string (decode key) :: (t.tokens ++ memberTokens rest)

end

end Text

/-- `More`: the next token does not close the array or object that is being read. -/
def more : List Token → Bool
  | [] => false
  | .delim .closeArray :: _ => false
  | .delim .closeObject :: _ => false
  | _ => true

theorem length_tokens_pos (t : Text) : 0 < t.tokens.length := by
  cases t <;> simp [Text.tokens]

theorem more_tokens (t : Text) (rest : List Token) : more (t.tokens ++ rest) = true := by
  cases t <;> simp [Text.tokens, more]

end ControlTower.Go.Json
