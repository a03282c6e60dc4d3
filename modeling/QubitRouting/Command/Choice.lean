import QubitRouting.Routing.Strategy
import QubitRouting.Text.Lowercase

/-!
# Naming strategies on the command line

Strategies can be named in any letter case, some of them also by a short name.
-/

set_option autoImplicit false

namespace QubitRouting

/-- A name that is no strategy, in lower case. -/
inductive ChoiceError where
  | unknownMover (name : String)
  | unknownMeeting (name : String)
deriving DecidableEq, Repr

namespace ChoiceError

def message : ChoiceError → String
  | unknownMover name =>
    s!"unknown mover strategy '{name}' (expected center or connectivity)"
  | unknownMeeting name =>
    s!"unknown meeting strategy '{name}' (expected truncate or edge-score)"

end ChoiceError

/-- The mover strategy with this name. -/
def MoverStrategy.choose (text : String) : Except ChoiceError MoverStrategy :=
  match Text.lowercase text with
  | "distance-to-center" | "center" => .ok .distanceToCenter
  | "less-connected" | "connectivity" => .ok .lessConnected
  | other => .error (.unknownMover other)

/-- The meeting strategy with this name. -/
def MeetingStrategy.choose (text : String) : Except ChoiceError MeetingStrategy :=
  match Text.lowercase text with
  | "truncate" => .ok .truncate
  | "edge-score" => .ok .edgeScore
  | other => .error (.unknownMeeting other)

end QubitRouting
