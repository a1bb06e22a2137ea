import JobQueue.Codec.Format
import JobQueue.Time.Rfc3339

/-!
# JobQueue.Time.Format

Instants as documents: texts in RFC 3339, read leniently.
-/

namespace JobQueue.Instant

/-- What a reader of instants expects. -/
def expected : String := "an RFC 3339 formatted date and time string"

/-- The instant of a text. -/
def parse (s : String) : Except String Instant :=
  (Rfc3339.parseLenient s).mapError Rfc3339.Fault.message

/-- Instants as documents. -/
def format : Format Instant :=
  .parsed "instant" expected parse Rfc3339.text

end JobQueue.Instant
