import SessionReplay.Capture.Basic
import SessionReplay.Wire.Encoder

/-!
What a session can be told beforehand.
-/

namespace SessionReplay.Session

structure Config where
  limits : Capture.Limits := {}
  rules : Masking.Rules := {}
  encoder : Wire.Encoder := {}
  /-- With more records than this a full snapshot is sent instead. -/
  maxMutations : Nat := 1000
  href : String := "app://"
deriving DecidableEq

/-- Masks all content. -/
def Config.strict : Config := { rules := { defaults := .everything } }

/-- Nothing is captured below the level to which it can be sent. -/
def Config.settings (config : Config) : Capture.Settings where
  rules := config.rules
  limits :=
    { config.limits with
      maxDepth :=
        if config.encoder.maxDepth < config.limits.maxDepth then config.encoder.maxDepth
        else config.limits.maxDepth }

end SessionReplay.Session
