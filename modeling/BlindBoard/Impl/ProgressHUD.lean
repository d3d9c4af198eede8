import BlindBoard.Impl.System

/-!
# The progress HUD

The one instance of `JGProgressHUD` behind `UIViewController.hud`, with the
fields of JGProgressHUD.m that decide whether it is shown: a HUD comes and goes
in a transition of its fade animation, takes no `show` while one goes on, and
keeps a `dismiss` until it is over. `LoaderState` is a launch with its HUD.
-/

namespace BlindBoard

open Lib

structure ProgressHUD (V : Type) where
  /-- `targetView`, a weak reference. -/
  targetView : Option V
  transitioning : Bool
  /-- `_presenting` of the animation. -/
  presenting : Bool
  dismissAfterTransitionFinished : Bool
  deriving DecidableEq

namespace ProgressHUD

variable {V : Type}

/-- `initWithStyle:` -/
def initWithStyle : ProgressHUD V := ⟨none, false, false, false⟩

/-- `showInView:animated:` with an animation. -/
def showInView (hud : ProgressHUD V) (view : V) : ProgressHUD V :=
  if hud.transitioning then hud
  else if hud.targetView.isSome then hud
  else { hud with targetView := some view, transitioning := true, presenting := true }

/-- `dismissAnimated:` with an animation, and a `minimumDisplayTime` of 0. -/
def dismissAnimated (hud : ProgressHUD V) : ProgressHUD V :=
  if hud.transitioning then { hud with dismissAfterTransitionFinished := true }
  else if hud.targetView.isNone then hud
  else { hud with transitioning := true, presenting := false }

def cleanUpAfterPresentation (hud : ProgressHUD V) : ProgressHUD V :=
  let hud := { hud with transitioning := false }
  if hud.dismissAfterTransitionFinished then
    { hud.dismissAnimated with dismissAfterTransitionFinished := false }
  else hud

def cleanUpAfterDismissal (hud : ProgressHUD V) : ProgressHUD V :=
  { hud with transitioning := false, dismissAfterTransitionFinished := false, targetView := none }

/-- `animationFinished`, which calls `animationDidFinish:`. -/
def animationFinished (hud : ProgressHUD V) : ProgressHUD V :=
  if hud.presenting then hud.cleanUpAfterPresentation else hud.cleanUpAfterDismissal

/-- A view is deallocated. -/
def deallocated [DecidableEq V] (hud : ProgressHUD V) (view : V) : ProgressHUD V :=
  if hud.targetView = some view then { hud with targetView := none } else hud

end ProgressHUD

/-- What happens to a HUD. -/
inductive HUDEvent (V : Type) where
  | show (view : V)
  | dismiss
  | animationFinished
  | deallocated (view : V)
  deriving DecidableEq

namespace ProgressHUD

variable {V : Type} [DecidableEq V]

/-- An animation finishes only while there is one. -/
def step (hud : ProgressHUD V) : HUDEvent V → Option (ProgressHUD V)
  | .show view => some (hud.showInView view)
  | .dismiss => some hud.dismissAnimated
  | .animationFinished => if hud.transitioning then some hud.animationFinished else none
  | .deallocated view => some (hud.deallocated view)

end ProgressHUD

/-! ## A launch and its HUD -/

/-- The call of `showLoader` that a step makes, if any. -/
def State.hudCall (s : State) : Action → Option (HUDEvent View)
  | .saveBoard contentTitle content _ _ =>
    match s.app.modal with
    | some (.addWord sheet) =>
      if contentTitle = some "" ∨ content = some "" then none else some (.show (.addWord sheet))
    | _ => none
  | .confirmDelete =>
    match s.app.modal with
    | some (.deleteAlert screen) =>
      if (s.app.details screen).isSome then some (.show (.detail screen)) else none
    | _ => none
  | .searched _ web _ => if ImageService.imagesFetched web = some UIImage.empty then some .dismiss else none
  | .answer ticket _ =>
    match s.app.find ticket with
    | some ⟨_, .downloadURL _ _, some ⟨.url _, _⟩⟩ => some .dismiss
    | some ⟨_, .deleteObject _ _, some ⟨.done, _⟩⟩ => some .dismiss
    | _ => none
  | _ => none

structure LoaderState where
  state : State
  hud : ProgressHUD View

namespace LoaderState

/-- The HUD's view is deallocated if nothing keeps it. -/
def released (hud : ProgressHUD View) (a : App) : ProgressHUD View :=
  match hud.targetView with
  | some view => if a.viewAlive view then hud else hud.deallocated view
  | none => hud

/-- The launch takes a step and calls the HUD, or (`none`) an animation finishes. -/
def step (x : LoaderState) : Option Action → Option LoaderState
  | some a => (BlindBoard.step x.state a).bind fun s =>
    (match x.state.hudCall a with
      | some call => x.hud.step call
      | none => some x.hud).map fun hud => ⟨s, released hud s.app⟩
  | none => (x.hud.step .animationFinished).map fun hud => { x with hud }

end LoaderState

end BlindBoard
