import JobQueue.Sample.Payload
import JobQueue.Task.Basic

/-!
# JobQueue.Sample.Handler

Handlers that do what their payload says: they succeed, fail in either way, break
off or sleep.

- `echo` returns the payload.
- `parity` decides by a number modulo three.
- `answer` replies to a ping.
- `script` looks the action up in a document, perhaps one for each attempt.
-/

namespace JobQueue.Sample

/-- Return the payload. -/
def echo {α : Type} : Handler α α := .pure fun ctx => .returned ctx.model

/-- Return a number that three divides, and fail for others. -/
def parity : Handler UInt32 UInt32 := .pure fun ctx =>
  if ctx.model % 3 = 0 then .returned ctx.model
  else if ctx.model % 3 = 1 then .failed (.retry "odd")
  else .failed (.cancel "skip")

/-- Double a number above two. -/
def answer : Handler Ping Json := .pure fun ctx =>
  let n := ctx.model.n.toNat
  if n = 0 then .failed (.cancel "zero")
  else if n = 1 then .failed (.retry "one")
  else if n = 2 then .broke (some "two")
  else .returned (.object [("double", .int (2 * n : Nat)), ("attempt", .int ctx.attempt.toNat)])

/-! ## Scripts -/

/-- The text of a document that is one, and otherwise nothing. -/
def textOf : Json → String
  | .str s => s
  | _ => ""

/-- The number of a document that is one, and otherwise zero. -/
def countOf : Json → Nat
  | .num (.int n) => n.toNat
  | _ => 0

/-- The texts of an array. -/
def textsOf : Json → List String
  | .arr items => items.map textOf
  | _ => []

/-- The action of an attempt: an item of the list of attempts, the last one also
for all later attempts; without such a list the whole document. -/
def actionFor (attempt : UInt32) (v : Json) : Json :=
  match v.get? "attempts" with
  | some (.arr (first :: rest)) =>
      let index := min (max attempt.toNat 1) (rest.length + 1) - 1
      (first :: rest)[index]?.getD v
  | _ => v

/-- How an action named by a key ends; `x` is what stands with the key. -/
def perform (ctx : Context Json) (key : String) (x : Json) : Verdict Reply :=
  match key with
  | "ok" => .returned (.value x)
  | "retry" => .failed (.retry (textOf x))
  | "cancel" => .failed (.cancel (textOf x))
  | "panic" => .broke (some (textOf x))
  | "panic_str" => .broke (some "static boom")
  | "panic_any" => .broke none
  | "anyhow" =>
      match textsOf x with
      | root :: contexts => .failed (.ofChain root contexts)
      | [] => .failed (.ofChain "" [])
  | "codec" =>
      match Format.u32.decode x with
      | .ok n => .returned (.value (.int n.toNat))
      | .error e => .failed (.ofCodec e)
  | "bad_result" => .returned (.bad (textOf x))
  | "nest" => .returned (.value (.nested (countOf x)))
  | "ctx" =>
      .returned (.value (.object
        [ ("id", .str ctx.id.text), ("name", .str ctx.name), ("label", .str ctx.label),
          ("attempt", .int ctx.attempt.toNat) ]))
  | "ctx_started" => .returned (.value (.str (Rfc3339.text ctx.started)))
  | "sleep" => .returned (.value .null)
  | _ => .returned (.value ctx.model)

/-- Do what the payload says. -/
def script : Handler Json Reply := fun ctx _ store =>
  match actionFor ctx.attempt ctx.model with
  | .obj ((key, x) :: _) =>
      { verdict := perform ctx key x, store, slept := if key = "sleep" then countOf x else 0 }
  | v => { verdict := .returned (.value v), store }

end JobQueue.Sample
