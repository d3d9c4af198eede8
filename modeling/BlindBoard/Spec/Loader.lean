import BlindBoard.Impl.ProgressHUD

/-!
# The abstract loader

A loader is over a view or over none: `show` puts it over a view unless it is
over one, `dismiss` takes it away, and it goes with its view.
-/

namespace BlindBoard.Spec

/-- The view that the loader is over. -/
abbrev Loader (V : Type) : Type := Option V

namespace Loader

variable {V : Type} [DecidableEq V]

def step (loader : Loader V) : HUDEvent V → Loader V
  | .show view => if loader.isSome then loader else some view
  | .dismiss => none
  | .animationFinished => loader
  | .deallocated view => if loader = some view then none else loader

end Loader

end BlindBoard.Spec
