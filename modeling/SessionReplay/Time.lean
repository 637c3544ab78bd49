/-!
Times in whole milliseconds.
-/

namespace SessionReplay

structure Timestamp where
  millis : UInt64
deriving DecidableEq, Inhabited, Repr

namespace Timestamp

/-- The time passed since `earlier`, and nothing when `earlier` is the later of the two. -/
def since (time earlier : Timestamp) : Nat := time.millis.toNat - earlier.millis.toNat

/-- The signed distance from `base`, kept within the range of a signed 64 bit number. -/
def offset (time base : Timestamp) : Int :=
  max Int64.minValue.toInt
    (min Int64.maxValue.toInt ((time.millis.toNat : Int) - base.millis.toNat))

def label (time : Timestamp) : String := "Timestamp(" ++ toString time.millis.toNat ++ "ms)"

end Timestamp

end SessionReplay
