/-
  Scriptling.Sink — where a program prints.

  A sink keeps what is printed, up to a limit if it has one. All that a program prints is
  ASCII, so a character is a byte.
-/

namespace Scriptling

/-- What has been printed, and how much more there is room for; `none` is no limit. -/
structure Sink where
  text : String := ""
  room : Option Nat := none
  deriving DecidableEq, Repr, Inhabited

namespace Sink

def unlimited : Sink := {}

def limited (limit : Nat) : Sink := { room := some limit }

/-- Prints `text`, and says whether it fitted. If not, its beginning is kept, as much as there is
    room for. -/
def write (sink : Sink) (text : String) : Bool × Sink :=
  match sink with
  | ⟨printed, none⟩ => (true, ⟨printed ++ text, none⟩)
  | ⟨printed, some room⟩ =>
    if text.length ≤ room then (true, ⟨printed ++ text, some (room - text.length)⟩)
    else (false, ⟨printed ++ String.ofList (text.toList.take room), some 0⟩)

end Sink

end Scriptling
