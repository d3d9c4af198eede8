import BlindBoard.Impl.System

/-!
# Launches on any number of devices

All launches of the app, on whichever device, share one cloud (`World`), and
UUIDs are fresh in all of it. A launch reads `SceneDelegate.uid` once; two
launches with the same `uid` use the same collection and Storage folder. The
steps of the launches interleave freely.
-/

namespace BlindBoard

open Lib

structure World (L : Type) where
  cloud : Cloud
  /-- The identifiers generated so far. -/
  used : List String
  apps : L → App

namespace World

variable {L : Type} [DecidableEq L]

/-- What a launch sees. -/
def view (w : World L) (l : L) : State := ⟨w.cloud, w.used, w.apps l⟩

/-- The world after the launch `l` has come to `s`. -/
def put (w : World L) (l : L) (s : State) : World L := ⟨s.cloud, s.used, Function.update w.apps l s.app⟩

/-- A launch takes a step. -/
def step (w : World L) (a : L × Action) : Option (World L) :=
  (BlindBoard.step (w.view a.1) a.2).map (w.put a.1)

/-- The identifier of a launch. -/
def uid (w : World L) (l : L) : Option UUID := (w.apps l).uid

/-- No launch has taken a step; the cloud is arbitrary. -/
def Start (w : World L) : Prop := ∀ l, w.apps l = App.launch (w.uid l)

/-- Launches with these identifiers, and an empty cloud. -/
def empty (uid : L → Option UUID) : World L := ⟨⟨∅, ∅⟩, [], fun l => App.launch (uid l)⟩

@[simp] theorem view_put (w : World L) (l : L) (s : State) : (w.put l s).view l = s := by
  simp [view, put]

theorem apps_put_ne (w : World L) {l l' : L} (s : State) (h : l' ≠ l) : (w.put l s).apps l' = w.apps l' :=
  Function.update_of_ne h ..

theorem put_put (w : World L) (l : L) (s s' : State) : (w.put l s).put l s' = w.put l s' := by
  simp [put]

end World

end BlindBoard
