import WireSchema.Binary64.Rounding
import WireSchema.Binary64.Shortest

/-!
Numbers as text. In plain text the digits are positional whatever the size; in documents very
large and very small numbers have an exponent. Reading takes the usual decimal forms and gives
the nearest number.
-/

set_option autoImplicit false

namespace WireSchema.Binary64

open WireSchema.Text

/-- Decimal digits with the point after the first `point` of them; zeros fill the gap when the
point lies outside the digits. -/
def positional (ds : List Char) (point : Int) : List Char :=
  if point ≤ 0 then '0' :: '.' :: List.replicate (-point).toNat '0' ++ ds
  else if ds.length ≤ point.toNat then ds ++ List.replicate (point.toNat - ds.length) '0'
  else ds.take point.toNat ++ '.' :: ds.drop point.toNat

/-- A finite number in positional digits, the fewest that read back; a half step goes up. -/
def plainDigits (x : Binary64) : List Char :=
  let d := x.shortest .away
  let ds := digits d.significand
  (if x.negative then ['-'] else []) ++
    (if d.significand = 0 then ['0'] else positional ds (ds.length + d.exponent))

def text (x : Binary64) : String :=
  if x.isNaN then "NaN"
  else if x.isFinite then String.ofList x.plainDigits
  else if x.negative then "-Infinity" else "Infinity"

/-- How a document writes a number that is not an integer of at most 53 bits: the fewest digits
that read back, a half step going to the even digit; positional with at least one digit on each
side of the point while the point lies after the digits `-4` to `16`, else with an exponent. -/
def documentDigits (x : Binary64) : List Char :=
  let d := x.shortest .even
  let ds := digits d.significand
  let point : Int := ds.length + d.exponent
  let sign := if x.negative then ['-'] else []
  if d.significand = 0 then sign ++ ['0', '.', '0']
  else if ds.length ≤ point ∧ point ≤ 16 then sign ++ positional ds point ++ ['.', '0']
  else if -5 < point ∧ point ≤ 16 then sign ++ positional ds point
  else
    let mantissa := if ds.length = 1 then ds else ds.take 1 ++ '.' :: ds.drop 1
    let power := point - 1
    sign ++ mantissa ++ 'e' :: (if power < 0 then '-' else '+') :: digits power.natAbs

/-- An exponent part: nothing, or `e` or `E`, an optional sign and at least one digit, up to the
end of the text. -/
def readExponent? : List Char → Option Int
  | [] => some 0
  | e :: rest =>
    if e = 'e' ∨ e = 'E' then
      let (negative, ds) : Bool × List Char :=
        match rest with
        | '-' :: more => (true, more)
        | '+' :: more => (false, more)
        | more => (false, more)
      if ds ≠ [] ∧ ds.all Char.isDigit then
        some (if negative then -(ofDigits ds : Int) else ofDigits ds)
      else none
    else none

/-- An unsigned decimal: digits, optionally a point and digits, at least one digit in all, and an
optional exponent. -/
def readMagnitude? (negative : Bool) (cs : List Char) : Option Binary64 :=
  let (whole, rest) := spanDigits cs
  let (part, rest) : List Char × List Char :=
    match rest with
    | '.' :: more => spanDigits more
    | more => ([], more)
  if whole = [] ∧ part = [] then none
  else
    (readExponent? rest).map fun e =>
      let ds := whole ++ part
      ofDecimal negative (ofDigits ds) ds.length (e - part.length)

/-- A number in text, as people write it: an optional sign, then `inf`, `infinity` or `nan` in any
case, or a decimal. -/
def read? (cs : List Char) : Option Binary64 :=
  let (negative, body) : Bool × List Char :=
    match cs with
    | '-' :: rest => (true, rest)
    | '+' :: rest => (false, rest)
    | rest => (false, rest)
  let word := body.map Char.toLower
  if word = "inf".toList ∨ word = "infinity".toList then some (infinity negative)
  else if word = "nan".toList then some (if negative then nan.neg else nan)
  else readMagnitude? negative body

end WireSchema.Binary64
