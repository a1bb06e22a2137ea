import JobQueue.Time.Rfc3339

/-!
# JobQueue.Time.Stamp

The form in which a table keeps instants: RFC 3339 with six digits of the
second, so that all stamps have one width and sort as texts in the order of the
instants. Instants before year 1 or after year 9999 become the first or the last
stamp there is.
-/

namespace JobQueue.Stamp

open Text Rfc3339

/-- The first stamp. -/
def first : String := "0001-01-01T00:00:00.000000Z"

/-- The last stamp. -/
def last : String := "9999-12-31T23:59:59.999999Z"

/-- The stamp of an instant. -/
def ofInstant (t : Instant) : String :=
  let f := fields t
  if f.date.year < 1 then first
  else if 9999 < f.date.year then last
  else String.ofList (civilText f ++ '.' :: padded 6 (f.nanos / 1000) ++ ['Z'])

/-- The instant of a stamp, or of any other text in the fixed layout. -/
def parse (s : String) : Except Fault Instant := parseStrict s

end JobQueue.Stamp
