import BlindBoard.Impl.Date
import BlindBoard.Impl.World

/-!
# Launches and the clock

The launches of the app on one device, one after another or side by side, with
the device's clock (`Timeline`): each step is taken at an instant, and where it
calls `Date().ISO8601Format()` it gets the text of that instant. `history` keeps
what the launches' logs record, in one order, each event with its instant; no
handler reads it.
-/

namespace BlindBoard

open Lib

/-- The step as it is taken at the instant `d`. -/
def Action.readingClock (d : Date) : Action → Action
  | .saveComment text _ autoID => .saveComment text d.ISO8601Format autoID
  | .answer ticket _ => .answer ticket d.ISO8601Format
  | a => a

structure Timeline (L : Type) where
  world : World L
  /-- The instant of the last step. -/
  clock : Date
  history : List (Date × L × Event)

namespace Timeline

variable {L : Type} [DecidableEq L]

/-- The events of a step of the launch `l`, at the instant `d`. -/
def recorded (d : Date) (l : L) (a a' : App) : List (Date × L × Event) :=
  (a'.log.drop a.log.length).map fun e => (d, l, e)

/-- At the instant `x.1` the launch `x.2.1` takes the step `x.2.2`. -/
def step (T : Timeline L) (x : Date × L × Action) : Option (Timeline L) :=
  (T.world.step (x.2.1, x.2.2.readingClock x.1)).map fun w =>
    ⟨w, x.1, T.history ++ recorded x.1 x.2.1 (T.world.apps x.2.1) (w.apps x.2.1)⟩

/-- The clock does not go back, and stays in the years that its text has room for. -/
def ClockForward (T : Timeline L) (x : Date × L × Action) : Prop :=
  T.clock.timeIntervalSinceReferenceDate ≤ x.1.timeIntervalSinceReferenceDate ∧ x.1.InEra

instance (T : Timeline L) : DecidablePred T.ClockForward := fun _ => inferInstanceAs (Decidable (_ ∧ _))

/-- No launch has taken a step, and their collections are empty. -/
structure Start (T : Timeline L) : Prop where
  launches : T.world.Start
  documents : ∀ l p, COLLECTION_BOARD (T.world.uid l) <+: p → T.world.cloud.documents.lookup p = none
  history : T.history = []

end Timeline

end BlindBoard
