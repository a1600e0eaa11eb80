/-!
# Number literals

The number literals of Go: integers in four bases, decimal and hexadecimal
floats, and imaginary numbers, with single `_` between digits. `Number.length`
is the length of the longest literal that a text begins with.
-/

namespace Recast.Number

def isBinaryDigit (c : Char) : Bool := c == '0' || c == '1'

def isOctalDigit (c : Char) : Bool := '0' ≤ c && c ≤ '7'

def isHexDigit (c : Char) : Bool :=
  c.isDigit || ('a' ≤ c && c ≤ 'f') || ('A' ≤ c && c ≤ 'F')

/-- The length of what continues a run of digits: digits, each with at most one
`_` before it. -/
def moreDigits (digit : Char → Bool) : List Char → Nat
  | [] => 0
  | [c] => if digit c then 1 else 0
  | c :: d :: cs =>
    if digit c then 1 + moreDigits digit (d :: cs)
    else if c == '_' && digit d then 2 + moreDigits digit cs
    else 0

/-- The length of a run of digits, none if there is no digit. -/
def digits (digit : Char → Bool) : List Char → Nat
  | [] => 0
  | c :: cs => if digit c then 1 + moreDigits digit cs else 0

/-- The length of a run of digits that may begin with `_`. -/
def laterDigits (digit : Char → Bool) : List Char → Nat
  | '_' :: cs => match digits digit cs with
    | 0 => 0
    | n => n + 1
  | cs => digits digit cs

/-- The length of an exponent: a letter, a sign or none, decimal digits. -/
def exponent (letter : Char → Bool) : List Char → Nat
  | c :: cs =>
    if letter c then
      match cs with
      | '+' :: ds | '-' :: ds => match digits Char.isDigit ds with
        | 0 => 0
        | n => n + 2
      | _ => match digits Char.isDigit cs with
        | 0 => 0
        | n => n + 1
    else 0
  | [] => 0

def isDecimalMark (c : Char) : Bool := c == 'e' || c == 'E'

def isHexMark (c : Char) : Bool := c == 'p' || c == 'P'

/-- `count` if it is more than nothing, together with what came before it. -/
def after (before count : Nat) : Nat := if count = 0 then 0 else before + count

/-- The lengths of the integer literals at the head of a text. -/
def integers : List Char → List Nat
  | '0' :: cs =>
    let marked := match cs with
      | 'x' :: ds | 'X' :: ds => after 2 (laterDigits isHexDigit ds)
      | 'b' :: ds | 'B' :: ds => after 2 (laterDigits isBinaryDigit ds)
      | 'o' :: ds | 'O' :: ds => after 2 (laterDigits isOctalDigit ds)
      | _ => 0
    [1, marked, after 1 (laterDigits isOctalDigit cs)]
  | cs => [digits Char.isDigit cs]

/-- The lengths of the decimal floats at the head of a text. -/
def decimalFloats (cs : List Char) : List Nat :=
  let whole := digits Char.isDigit cs
  match cs.drop whole with
  | '.' :: ds =>
    let fraction := digits Char.isDigit ds
    if whole = 0 ∧ fraction = 0 then []
    else [whole + 1 + fraction + exponent isDecimalMark (ds.drop fraction)]
  | rest => if whole = 0 then [] else [after whole (exponent isDecimalMark rest)]

/-- The lengths of the hexadecimal floats at the head of a text. -/
def hexFloats : List Char → List Nat
  | '0' :: x :: cs =>
    if x == 'x' || x == 'X' then
      let whole := laterDigits isHexDigit cs
      match cs.drop whole with
      | '.' :: ds =>
        let fraction := digits isHexDigit ds
        if whole = 0 ∧ fraction = 0 then []
        else [after (whole + 3 + fraction) (exponent isHexMark (ds.drop fraction))]
      | rest => if whole = 0 then [] else [after (whole + 2) (exponent isHexMark rest)]
    else []
  | _ => []

/-- The length of the imaginary literal made of a number of a given length. -/
def imaginary (cs : List Char) (count : Nat) : Nat :=
  match cs.drop count with
  | 'i' :: _ => after 1 count
  | _ => 0

/-- The length of the longest number literal at the head of a text, zero if
there is none. Decimal digits with a leading zero make a literal only as an
imaginary number. -/
def length (cs : List Char) : Nat :=
  let real := integers cs ++ decimalFloats cs ++ hexFloats cs
  let all := real ++ (digits Char.isDigit cs :: real).map (imaginary cs)
  all.foldl max 0

end Recast.Number
