import StochasticGrammar.Decimal

namespace StochasticGrammar

/-- A white space character of any script. -/
def isBlank (c : Char) : Bool :=
  let code := c.toNat
  (9 ≤ code ∧ code ≤ 13) ∨ code = 0x20 ∨ code = 0x85 ∨ code = 0xa0 ∨ code = 0x1680 ∨
    (0x2000 ≤ code ∧ code ≤ 0x200a) ∨ code = 0x2028 ∨ code = 0x2029 ∨ code = 0x202f ∨
    code = 0x205f ∨ code = 0x3000

def trimBlanks (text : List Char) : List Char :=
  ((text.dropWhile isBlank).reverse.dropWhile isBlank).reverse

/-- The code points of the decimal zeros of Unicode 14.0, which version 3.11 of the runtime has, in
order. Every script with decimal digits has them as a run of ten code points from its zero. -/
def decimalZeros : List Nat :=
  [0x30, 0x660, 0x6f0, 0x7c0, 0x966, 0x9e6, 0xa66, 0xae6, 0xb66,
   0xbe6, 0xc66, 0xce6, 0xd66, 0xde6, 0xe50, 0xed0, 0xf20, 0x1040,
   0x1090, 0x17e0, 0x1810, 0x1946, 0x19d0, 0x1a80, 0x1a90, 0x1b50, 0x1bb0,
   0x1c40, 0x1c50, 0xa620, 0xa8d0, 0xa900, 0xa9d0, 0xa9f0, 0xaa50, 0xabf0,
   0xff10, 0x104a0, 0x10d30, 0x11066, 0x110f0, 0x11136, 0x111d0, 0x112f0, 0x11450,
   0x114d0, 0x11650, 0x116c0, 0x11730, 0x118e0, 0x11950, 0x11c50, 0x11d50, 0x11da0,
   0x16a60, 0x16ac0, 0x16b50, 0x1d7ce, 0x1d7d8, 0x1d7e2, 0x1d7ec, 0x1d7f6, 0x1e140,
   0x1e2f0, 0x1e950, 0x1fbf0]

def digitValue? (c : Char) : Option Nat :=
  (decimalZeros.find? fun start => start ≤ c.toNat ∧ c.toNat < start + 10).map (c.toNat - ·)

def ofDigits (digits : List Nat) : Nat := digits.foldl (fun value digit => 10 * value + digit) 0

/-- The values of the digits at the start of a text, and the text after them. -/
def takeDigits : List Char → List Nat × List Char
  | [] => ([], [])
  | c :: rest =>
    match digitValue? c with
    | some value => (value :: (takeDigits rest).1, (takeDigits rest).2)
    | none => ([], c :: rest)

/-- Whether a text starts with a minus, and the text after a sign. -/
def takeSign : List Char → Bool × List Char
  | '-' :: rest => (true, rest)
  | '+' :: rest => (false, rest)
  | text => (false, text)

def takeFraction : List Char → List Nat × List Char
  | '.' :: rest => takeDigits rest
  | text => ([], text)

/-- The power of ten at the end of a numeral; a numeral without one has the power zero. -/
def exponentPart? : List Char → Option Int
  | [] => some 0
  | c :: rest =>
    if c = 'e' ∨ c = 'E' then
      match takeDigits (takeSign rest).2 with
      | (digit :: digits, []) =>
        let size := ofDigits (digit :: digits)
        some (if (takeSign rest).1 then -(size : Int) else size)
      | _ => none
    else none

/-- The decimal that a text denotes, if the whole text is a numeral: a sign, digits of any scripts
with at most one point, and a power of ten. -/
def numeral? (text : List Char) : Option Decimal :=
  let (negative, unsigned) := takeSign text
  let (whole, afterWhole) := takeDigits unsigned
  let (fraction, rest) := takeFraction afterWhole
  if whole.isEmpty ∧ fraction.isEmpty then none
  else (exponentPart? rest).map fun exponent =>
    ⟨negative, ofDigits (whole ++ fraction), exponent - fraction.length⟩

inductive IntegerFault where
  | unreadable
  | tooLong
deriving DecidableEq

/-- The greatest number of digits of a plain integer. -/
def digitLimit : Nat := 4300

/-- Whether a minus sign starts a text, and the text after it. -/
def splitMinus : List Char → Bool × List Char
  | '-' :: rest => (true, rest)
  | text => (false, text)

/-- Whether a text starts like a plain integer, and with more digits than are read. What follows
them does not matter. -/
def startsTooLong (text : List Char) : Bool :=
  let digits := (splitMinus text).2.takeWhile Char.isDigit
  digits.head? ≠ some '0' ∧ digitLimit < digits.length

/-- ASCII digits, not too many, and without a zero at the start. -/
def isPlainNumber (text : List Char) : Bool :=
  !text.isEmpty ∧ text.all Char.isDigit ∧ (text.head? = some '0' → text = ['0']) ∧
    text.length ≤ digitLimit

def plainInteger? (text : List Char) : Option Int :=
  let (negative, digits) := splitMinus text
  if isPlainNumber digits then
    let size : Int := ofDigits (digits.map fun c => c.toNat - '0'.toNat)
    some (if negative then -size else size)
  else none

/-- Whether a minus sign starts a text, and the text after its sign. No minus sign may follow a plus
sign. -/
def splitSign : List Char → Option (Bool × List Char)
  | '+' :: '-' :: _ => none
  | '+' :: rest => some (false, rest)
  | text => some (splitMinus text)

/-- The text after zeros and underscores, of which `last` is the last. That one is kept where a
point or nothing follows; a minus sign may still follow. -/
def dropZerosAfter (last : Char) : List Char → Option (List Char)
  | [] => some [last]
  | c :: rest =>
    if c = '0' ∨ c = '_' then dropZerosAfter c rest
    else if c = '.' then some (last :: c :: rest)
    else if c = '-' ∨ c.isDigit then some (c :: rest)
    else none

/-- The text without the zeros at its start, which has to be a digit or a minus sign. -/
def dropZeros : List Char → Option (List Char)
  | [] => none
  | c :: rest =>
    if c = '0' then dropZerosAfter c rest
    else if c = '-' ∨ c.isDigit then some (c :: rest)
    else none

/-- The text without a point and the zeros after it, of which there is at least one. -/
def dropZeroFraction (text : List Char) : List Char :=
  match text.dropWhile (· ≠ '.') with
  | _ :: zero :: rest =>
    if (zero :: rest).all (· = '0') then text.takeWhile (· ≠ '.') else text
  | _ => text

/-- The text without its underscores, if none stands at an end or next to another one. -/
def dropUnderscores (text : List Char) : List Char :=
  if text.head? = some '_' ∨ text.getLast? = some '_' ∨ (text.zip text.tail).contains ('_', '_')
  then text
  else text.filter (· ≠ '_')

def plainText? (text : List Char) : Option (List Char) :=
  match splitSign (trimBlanks text) with
  | none => none
  | some (negative, number) =>
    (dropZeros number).map fun digits =>
      let plain := dropUnderscores (dropZeroFraction digits)
      if negative then '-' :: plain else plain

/-- The integer that a text denotes: a plain one, around which may stand white space, a plus sign,
zeros at the start, single underscores inside, and a point followed by zeros. It is too long only if
its digits start it, after at most a minus sign; any other with too many digits is unreadable. -/
def readInteger (text : String) : Except IntegerFault Int :=
  if startsTooLong text.toList then .error .tooLong
  else ((plainText? text.toList).bind plainInteger?).elim (.error .unreadable) .ok

end StochasticGrammar
