import Mathlib.Data.List.Basic

/-!
# Lines of a session (`simple_message_processor.cpp`)

The bytes of a session arrive in reads. `newline_tokenizer` cuts what was read at the newlines,
hands every line to a callback and keeps the unfinished one for the next read. The callback is
`process_message`; it works on a state `σ` of its own and may not return.
-/

namespace Raft

/-- The last `'\r'` is stripped off. -/
def stripReturn (message : List Char) : List Char :=
  if message.getLast? = some '\r' then message.dropLast else message

section
variable {σ ε : Type}

/-- `newline_tokenizer`: the state after the callbacks, and the incomplete message. -/
def newlineTokenizer (callback : σ → List Char → Except ε σ) (s : σ) (buffer : List Char)
    (incompleteMessage : List Char) : Except ε (σ × List Char) :=
  match _h : buffer.dropWhile (· ≠ '\n') with
  | [] => .ok (s, incompleteMessage ++ buffer)
  | _ :: rest => do
    let line := buffer.takeWhile (· ≠ '\n')
    let s ← callback s (stripReturn (incompleteMessage ++ line))
    newlineTokenizer callback s rest []
termination_by buffer.length
decreasing_by
  have := (buffer.dropWhile_suffix (· ≠ '\n')).length_le
  rw [_h, List.length_cons] at this
  omega

/-- `MessageProcessor` -/
structure MessageProcessor where
  incompleteMessage : List Char
  deriving DecidableEq, Repr

namespace MessageProcessor

/-- The constructor. -/
def init : MessageProcessor := ⟨[]⟩

/-- `process_read`, with the bytes that were received. -/
def processRead (processMessage : σ → List Char → Except ε σ) (s : σ) (p : MessageProcessor)
    (received : List Char) : Except ε (σ × MessageProcessor) := do
  let (s, incompleteMessage) ← newlineTokenizer processMessage s received p.incompleteMessage
  .ok (s, { p with incompleteMessage })

/-- The reads of a session, one after the other. -/
def processReads (processMessage : σ → List Char → Except ε σ) :
    σ → MessageProcessor → List (List Char) → Except ε (σ × MessageProcessor)
  | s, p, [] => .ok (s, p)
  | s, p, received :: reads => do
    let (s, p) ← processRead processMessage s p received
    processReads processMessage s p reads

end MessageProcessor

end

end Raft
