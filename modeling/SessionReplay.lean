import SessionReplay.Proofs.Document.Transition
import SessionReplay.Session.Basic
import SessionReplay.Document.Replica
import SessionReplay.Trace.Log
import SessionReplay.Trace.Recording
import SessionReplay.Trace.Timeline
import SessionReplay.View.Arena
import SessionReplay.Wire.Text
import SessionReplay.Proofs.Document.Replaying
import SessionReplay.Proofs.Capture.Masking
import SessionReplay.Proofs.Capture.Reach
import SessionReplay.Proofs.Capture.Veil
import SessionReplay.Proofs.Wire.Redaction
import SessionReplay.Proofs.Session.Run
import SessionReplay.Proofs.Session.Secrecy
import SessionReplay.Proofs.Style.Reading
import SessionReplay.Proofs.Style.Derived
import SessionReplay.Proofs.Capture.Drawing
import SessionReplay.Proofs.Identity.Counting
import SessionReplay.Proofs.Capture.Issuing
import SessionReplay.Proofs.Wire.Player
import SessionReplay.Proofs.Wire.Playing
import SessionReplay.Proofs.Session.Playback
import SessionReplay.Proofs.Session.Drift
import SessionReplay.Proofs.Session.Restyling
import SessionReplay.Proofs.Identity.History
import SessionReplay.Proofs.Capture.Naming
import SessionReplay.Proofs.Capture.Series
import SessionReplay.Proofs.Session.Retained
import SessionReplay.Proofs.Document.Accepting
import SessionReplay.Proofs.Document.Refusing
import SessionReplay.Proofs.Document.Agreement
import SessionReplay.Proofs.Wire.Increments
import SessionReplay.Proofs.Session.Repeating
import SessionReplay.Proofs.Session.Effect
import SessionReplay.Proofs.Session.Pointing
import SessionReplay.Proofs.Session.Protocol
import SessionReplay.Proofs.Session.Renewal
import SessionReplay.Proofs.Session.Telling
import SessionReplay.Proofs.Trace.Decoding
import SessionReplay.Proofs.Wire.Concealing
import SessionReplay.Proofs.Json.Spelling
import SessionReplay.Proofs.Wire.Spelling
import SessionReplay.Proofs.View.Run
import SessionReplay.Proofs.View.Slots
import SessionReplay.Proofs.View.Coherence
import SessionReplay.Proofs.View.Releasing
import SessionReplay.Proofs.View.Handles
import SessionReplay.Proofs.View.Store
import SessionReplay.Proofs.View.Simulation
import SessionReplay.Proofs.View.Lifetime
import SessionReplay.Proofs.View.Refinement
import SessionReplay.Proofs.View.Ancestry
import SessionReplay.Proofs.View.Forest
import SessionReplay.Proofs.Document.Minimality
import SessionReplay.Proofs.Document.Reordering
import SessionReplay.Proofs.Capture.Budget
import SessionReplay.Proofs.Capture.Truncation
import SessionReplay.Proofs.Capture.Placing
import SessionReplay.Proofs.Capture.Ceiling
import SessionReplay.Proofs.Capture.Locality
import SessionReplay.Proofs.Wire.Levels
import SessionReplay.Proofs.Style.Clean
import SessionReplay.Proofs.Trace.Slices
import SessionReplay.Proofs.View.Refusing
import SessionReplay.Proofs.Document.Patience
import SessionReplay.Proofs.Document.Deltas
import SessionReplay.Proofs.Tree.Traversal
