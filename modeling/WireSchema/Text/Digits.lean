/-!
Decimal digits: how natural numbers and integers are written, with or without a least width,
and how runs of ASCII digits are read off the front of a text.
-/

set_option autoImplicit false

namespace WireSchema.Text

def digits (n : Nat) : List Char :=
  Nat.toDigits 10 n

def ofDigits (ds : List Char) : Nat :=
  Nat.ofDigitChars 10 ds 0

def padded (width n : Nat) : List Char :=
  let ds := digits n
  List.replicate (width - ds.length) '0' ++ ds

def decimal (n : Nat) : String :=
  String.ofList (digits n)

def integer (n : Int) : String :=
  if n < 0 then "-" ++ decimal n.natAbs else decimal n.natAbs

def spanDigits (cs : List Char) : List Char × List Char :=
  cs.span Char.isDigit

/-- Exactly `count` decimal digits in front, as a number, and what follows them. -/
def takeNat? (count : Nat) (cs : List Char) : Option (Nat × List Char) :=
  let ds := cs.take count
  if ds.length = count ∧ ds.all Char.isDigit then some (ofDigits ds, cs.drop count) else none

def dropChar? (c : Char) : List Char → Option (List Char)
  | [] => none
  | d :: rest => if d = c then some rest else none

theorem ofDigits_digits (n : Nat) : ofDigits (digits n) = n :=
  Nat.ofDigitChars_toDigits (by decide) (by decide)

theorem isDigit_of_mem_digits {n : Nat} {c : Char} (h : c ∈ digits n) : c.isDigit = true :=
  Nat.isDigit_of_mem_toDigits (by decide) (by decide) h

end WireSchema.Text
