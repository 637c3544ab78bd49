import SessionReplay.Decimal.Shortest

/-!
How a double is laid out as text. The digits are always the shortest that read back; a `Layout`
holds the remaining decisions of a format, and `Layout.write` carries them out.
-/

namespace SessionReplay.Decimal

structure Layout where
  /-- Which of two equally short and equally near decimals is written. -/
  tie : Tie
  /-- Whether a number whose leading digit stands for `10 ^ exponent` is written without an
  exponent part. -/
  positional : Int → Bool
  /-- Whether a whole number in positional form ends in `.0`. -/
  keepsPoint : Bool
  /-- Whether the sign of a negative zero is written. -/
  signsZero : Bool
  notANumber : String
  infinity : String
  negativeInfinity : String

/-- Plain digits without an exponent part and without a needless point, as in style values. -/
def Layout.plain : Layout where
  tie := .up
  positional := fun _ => true
  keepsPoint := false
  signsZero := false
  notANumber := "NaN"
  infinity := "inf"
  negativeInfinity := "-inf"

/-- JSON has no text for a number that is not finite. Very large and very small numbers have an
exponent part, and the others always a point. -/
def Layout.json : Layout where
  tie := .even
  positional := fun exponent => decide (-5 ≤ exponent) && decide (exponent < 16)
  keepsPoint := true
  signsZero := true
  notANumber := "null"
  infinity := "null"
  negativeInfinity := "null"

def digitsOf (number : Nat) : List Char := Nat.toDigits 10 number

/-- The exponent of the leading digit. -/
def magnitude (decimal : Decimal) : Int :=
  (digitsOf decimal.digits).length - 1 + decimal.exponent

def wholeEnd (layout : Layout) : List Char := if layout.keepsPoint then ['.', '0'] else []

def positionalText (layout : Layout) (decimal : Decimal) : List Char :=
  let digits := digitsOf decimal.digits
  let point : Int := digits.length + decimal.exponent
  if 0 ≤ decimal.exponent then
    digits ++ List.replicate decimal.exponent.toNat '0' ++ wholeEnd layout
  else if point ≤ 0 then
    '0' :: '.' :: (List.replicate (-point).toNat '0' ++ digits)
  else
    digits.take point.toNat ++ '.' :: digits.drop point.toNat

def exponentText (exponent : Int) : List Char :=
  'e' :: (if exponent < 0 then '-' else '+') :: digitsOf exponent.natAbs

def scientificText (decimal : Decimal) : List Char :=
  match digitsOf decimal.digits with
  | [] => exponentText (magnitude decimal)
  | [lead] => lead :: exponentText (magnitude decimal)
  | lead :: rest => lead :: '.' :: (rest ++ exponentText (magnitude decimal))

def Layout.writeDecimal (layout : Layout) (decimal : Decimal) : List Char :=
  if layout.positional (magnitude decimal) then positionalText layout decimal
  else scientificText decimal

def Layout.write (layout : Layout) (number : Float) : String :=
  if number.isNaN then layout.notANumber
  else if number.isInf then
    if number < 0 then layout.negativeInfinity else layout.infinity
  else
    let negative := UInt64.size / 2 ≤ number.toBits.toNat
    let value := Binary.ofBits number.toBits
    if value.mantissa = 0 then
      String.ofList ((if negative ∧ layout.signsZero then ['-'] else []) ++ '0' :: wholeEnd layout)
    else
      String.ofList ((if negative then ['-'] else []) ++
        layout.writeDecimal (shortest layout.tie value))

end SessionReplay.Decimal
