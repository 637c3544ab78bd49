/-!
Hexadecimal digits, in lower case.
-/

namespace SessionReplay.Text

/-- The two digits of a number below 256. -/
def hexPair (number : Nat) : List Char := [Nat.digitChar (number / 16), Nat.digitChar (number % 16)]

/-- As many digits as a number needs. -/
def hex (number : Nat) : List Char := Nat.toDigits 16 number

end SessionReplay.Text
