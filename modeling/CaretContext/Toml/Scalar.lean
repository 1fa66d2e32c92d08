/-!
# Numbers and points in time

Which bare words of TOML are numbers, dates or times. Only their form matters here.
-/

namespace CaretContext.Toml

def isDigits (digit : Char → Bool) : List Char → Bool
  | [] => false
  | [c] => digit c
  | c :: '_' :: d :: rest => digit c && isDigits digit (d :: rest)
  | c :: d :: rest => digit c && isDigits digit (d :: rest)

def isDecimal (cs : List Char) : Bool :=
  isDigits Char.isDigit cs && (cs.length = 1 || cs.head? != some '0')

def dropSign : List Char → List Char
  | '+' :: rest => rest
  | '-' :: rest => rest
  | cs => cs

def isHexadecimal (c : Char) : Bool :=
  c.isDigit || ('a' ≤ c && c ≤ 'f') || ('A' ≤ c && c ≤ 'F')

/-- The digits of an integer behind the mark of its base, where none at all will do. -/
def isBased (digit : Char → Bool) (cs : List Char) : Bool := cs.isEmpty || isDigits digit cs

def isInteger (cs : List Char) : Bool :=
  match cs with
  | '0' :: 'x' :: rest => isBased isHexadecimal rest
  | '0' :: 'o' :: rest => isBased (fun c => '0' ≤ c && c ≤ '7') rest
  | '0' :: 'b' :: rest => isBased (fun c => c = '0' || c = '1') rest
  | _ => isDecimal (dropSign cs)

/-- The parts before and after the first character with the property. -/
def splitFirst (p : Char → Bool) (cs : List Char) : List Char × Option (List Char) :=
  let before := cs.takeWhile fun c => !p c
  match cs.drop before.length with
  | _ :: after => (before, some after)
  | [] => (before, none)

def isFloat (cs : List Char) : Bool :=
  let body := dropSign cs
  let (mantissa, exponent) := splitFirst (fun c => c = 'e' || c = 'E') body
  let (whole, fraction) := splitFirst (· = '.') mantissa
  body = ['i', 'n', 'f'] || body = ['n', 'a', 'n'] ||
    (isDecimal whole && (fraction.isSome || exponent.isSome) &&
      fraction.all (isDigits Char.isDigit) && exponent.all fun e => isDigits Char.isDigit (dropSign e))

def decimalValue (cs : List Char) : Nat := cs.foldl (fun n c => 10 * n + (c.toNat - '0'.toNat)) 0

def isTwoDigits (bound : Nat) : List Char → Bool
  | [a, b] => a.isDigit && b.isDigit && decimalValue [a, b] < bound
  | _ => false

def isLeapYear (year : Nat) : Bool := year % 4 = 0 && (year % 100 != 0 || year % 400 = 0)

/-- The number of days of a month, and none of a month that does not exist. -/
def daysInMonth (year month : Nat) : Nat :=
  match month with
  | 1 | 3 | 5 | 7 | 8 | 10 | 12 => 31
  | 4 | 6 | 9 | 11 => 30
  | 2 => if isLeapYear year then 29 else 28
  | _ => 0

def isDate : List Char → Bool
  | [a, b, c, d, '-', e, f, '-', g, h] =>
    let day := decimalValue [g, h]
    [a, b, c, d, e, f, g, h].all Char.isDigit && 0 < day &&
      day ≤ daysInMonth (decimalValue [a, b, c, d]) (decimalValue [e, f])
  | _ => false

/-- A time of day. Seconds and their fraction may be left out. -/
def isTime : List Char → Bool
  | a :: b :: ':' :: c :: d :: rest =>
    isTwoDigits 24 [a, b] && isTwoDigits 60 [c, d] &&
      match rest with
      | [] => true
      | ':' :: e :: f :: fraction =>
        isTwoDigits 61 [e, f] &&
          match fraction with
          | [] => true
          | '.' :: digits => !digits.isEmpty && digits.all Char.isDigit
          | _ => false
      | _ => false
  | _ => false

def isZone : List Char → Bool
  | [z] => z = 'Z' || z = 'z'
  | [s, a, b, ':', c, d] => (s = '+' || s = '-') && isTwoDigits 24 [a, b] && isTwoDigits 60 [c, d]
  | _ => false

def isZonedTime (cs : List Char) : Bool :=
  let time := cs.takeWhile fun c => c.isDigit || c = ':' || c = '.'
  isTime time && (time.length = cs.length || isZone (cs.drop time.length))

def isMoment (cs : List Char) : Bool :=
  let date := cs.take 10
  isTime cs || isDate cs ||
    (isDate date &&
      match cs.drop 10 with
      | t :: rest => (t = 'T' || t = 't' || t = ' ') && isZonedTime rest
      | [] => false)

def isScalar (cs : List Char) : Bool := isInteger cs || isFloat cs || isMoment cs

end CaretContext.Toml
