/-!
# Decimal integers

* `readDecimal` : the value of a decimal numeral, bounded by a limit;
* `DecimalError` : why a text is not such a numeral.
-/

namespace StructuralEditor.Text

/-- Why a text is not a decimal numeral within its limit. -/
inductive DecimalError where
  | empty
  | invalidDigit
  | tooLarge
deriving DecidableEq, Repr

def DecimalError.message : DecimalError → String
  | .empty => "cannot parse integer from empty string"
  | .invalidDigit => "invalid digit found in string"
  | .tooLarge => "number too large to fit in target type"

/-- The greatest number that fits in 32 bits: the limit of lines, columns and sibling indices. -/
def limit32 : Nat := 4294967295

/-- The greatest number that fits in 64 bits. -/
def limit64 : Nat := 18446744073709551615

/-- The value of the digits after a part worth `value`; the first digit that does not fit decides. -/
def readDigits (limit value : Nat) : List Char → Except DecimalError Nat
  | [] => .ok value
  | c :: rest =>
    if c.isDigit then
      let next := value * 10 + (c.toNat - '0'.toNat)
      if next ≤ limit then readDigits limit next rest else .error .tooLarge
    else .error .invalidDigit

/-- The value of a numeral: an optional plus sign, then one or more decimal digits. -/
def readDecimal (limit : Nat) : List Char → Except DecimalError Nat
  | [] => .error .empty
  | ['+'] => .error .invalidDigit
  | '+' :: digits => readDigits limit 0 digits
  | digits => readDigits limit 0 digits

end StructuralEditor.Text
