import Demanded.Event
import Demanded.Failure
import Demanded.State.Codec

/-!
# States in files

A state is saved as the text `State.encode` and restored by `State.decode`.  Reading and writing the
file is left to the caller, who tells how it went.
-/

namespace Demanded.State

/-- The state that a text stores, or the reason why there is none. -/
def decode (text : String) : Except Failure State :=
  match decode? text with
  | some s => .ok s
  | none => .error (.malformedState (Json.objection text))

/-- Restores a state from the content of a file, or from the reason why it cannot be read. -/
def restore (path : String) (content : Except String String) : Except Failure State :=
  match content with
  | .ok text => decode text
  | .error cause => .error (.unreadableState path cause)

/-- What saving a state comes to, given whether the file could be written and why not. -/
def saved (path : String) (written : Except String Unit) : Logged (Except Failure Unit) :=
  match written with
  | .ok () => ⟨.ok (), [.stateSaved path]⟩
  | .error cause => ⟨.error (.unwritableState path cause), []⟩

end Demanded.State
