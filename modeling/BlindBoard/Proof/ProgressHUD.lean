import BlindBoard.Spec.Loader
import BlindBoard.Proof.Loader

/-!
# The progress HUD is a loader, but for its transitions

The view that a HUD is over (`ProgressHUD.view`: not one that it is leaving)
changes as that of the abstract loader does, with one exception: a `show` that
comes during a transition is not taken, so it is lost if the transition leaves the
HUD over no view (`view_step`). All along a run of a launch the HUD is over the view
of its loader exactly when no `show` comes at such a moment (`launch_loader_iff`). A
`dismiss` is never lost (`dismiss_kept`).
-/

namespace BlindBoard

open Lib Spec

namespace ProgressHUD

variable {V : Type} {hud hud' : ProgressHUD V}

/-- The HUD is on its way out, or will be once its transition is over. -/
def closing (hud : ProgressHUD V) : Bool :=
  hud.transitioning && (!hud.presenting || hud.dismissAfterTransitionFinished)

/-- The view that the HUD is over, unless it is leaving it. -/
def view (hud : ProgressHUD V) : Loader V := if hud.closing then none else hud.targetView

/-- A dismissal waits for the end of a transition only. -/
def Waits (hud : ProgressHUD V) : Prop := hud.dismissAfterTransitionFinished = true → hud.transitioning = true

/-- A `show` finds the HUD at rest or over a view. -/
def Heard (hud : ProgressHUD V) (e : HUDEvent V) : Prop :=
  ∀ view, e = .show view → hud.transitioning = true → hud.view.isSome = true

instance [DecidableEq V] (hud : ProgressHUD V) : DecidablePred hud.Heard := fun e =>
  match e with
  | .show view => decidable_of_iff (hud.transitioning = true → hud.view.isSome = true)
    ⟨fun h _ _ => h, fun h => h view rfl⟩
  | .dismiss => .isTrue nofun
  | .animationFinished => .isTrue nofun
  | .deallocated _ => .isTrue nofun

/-- Only a `show` is not heard. -/
theorem heard_of_ne {e : HUDEvent V} (h : ∀ view, e ≠ .show view) : hud.Heard e :=
  fun view he => absurd he (h view)

theorem waits_initial : (initWithStyle : ProgressHUD V).Waits := nofun

theorem Waits.showInView (h : hud.Waits) (view : V) : (hud.showInView view).Waits := by
  unfold ProgressHUD.showInView
  split
  · exact h
  · split
    · exact h
    · exact fun _ => rfl

theorem Waits.dismissAnimated (h : hud.Waits) : hud.dismissAnimated.Waits := by
  unfold ProgressHUD.dismissAnimated
  split
  next ht => exact fun _ => ht
  · split
    · exact h
    · exact fun _ => rfl

theorem waits_animationFinished (hud : ProgressHUD V) : hud.animationFinished.Waits := by
  obtain ⟨target, transitioning, presenting, pending⟩ := hud
  cases presenting <;> cases pending <;>
    simp [Waits, animationFinished, cleanUpAfterPresentation, cleanUpAfterDismissal]

variable [DecidableEq V]

theorem Waits.step (h : hud.Waits) {e : HUDEvent V} (hs : hud.step e = some hud') : hud'.Waits := by
  cases e with
  | «show» view => cases hs; exact h.showInView view
  | dismiss => cases hs; exact h.dismissAnimated
  | animationFinished =>
    obtain ⟨-, hs⟩ := Option.ite_none_right_eq_some.mp hs
    cases hs
    exact hud.waits_animationFinished
  | deallocated view =>
    cases hs
    unfold deallocated
    split
    · exact h
    · exact h

/-- A HUD takes the step of the loader, unless it is a `show` that it does not hear. -/
theorem view_step (h : hud.Waits) {e : HUDEvent V} (hs : hud.step e = some hud') :
    hud'.view = hud.view.step e ↔ hud.Heard e := by
  cases e with
  | «show» view =>
    cases hs
    have heard : hud.Heard (.show view) ↔ (hud.transitioning = true → hud.view.isSome = true) :=
      ⟨fun h => h view rfl, fun h _ _ => h⟩
    rw [heard, Loader.step, showInView]
    cases ht : hud.transitioning with
    | true => cases hv : hud.view <;> simp [hv]
    | false =>
      have hp : hud.dismissAfterTransitionFinished = false := by
        by_contra hp
        simp [h (by simpa using hp)] at ht
      cases hv : hud.targetView <;> simp [ProgressHUD.view, closing, ht, hv, hp]
  | dismiss =>
    cases hs
    refine iff_of_true ?_ nofun
    rw [Loader.step, dismissAnimated]
    cases ht : hud.transitioning with
    | true => simp [ProgressHUD.view, closing]
    | false => cases hv : hud.targetView <;> simp [ProgressHUD.view, closing, ht, hv]
  | animationFinished =>
    obtain ⟨ht, hs⟩ := Option.ite_none_right_eq_some.mp hs
    cases hs
    refine iff_of_true ?_ nofun
    rw [Loader.step, animationFinished]
    cases hp : hud.presenting with
    | true =>
      cases hd : hud.dismissAfterTransitionFinished with
      | true =>
        cases hv : hud.targetView <;>
          simp [ProgressHUD.view, closing, cleanUpAfterPresentation, dismissAnimated, ht, hp, hd, hv]
      | false => simp [ProgressHUD.view, closing, cleanUpAfterPresentation, ht, hp, hd]
    | false => simp [ProgressHUD.view, closing, cleanUpAfterDismissal, ht, hp]
  | deallocated view =>
    cases hs
    refine iff_of_true ?_ nofun
    rw [Loader.step, deallocated]
    cases hc : hud.closing with
    | true =>
      split <;> simp_all [ProgressHUD.view, closing]
    | false =>
      split <;> simp_all [ProgressHUD.view, closing]

omit [DecidableEq V] in
/-- A `show` that is not heard finds a HUD over no view, and leaves it there. -/
theorem unheard {view : V} (h : ¬ hud.Heard (.show view)) : hud.view = none ∧ hud.showInView view = hud := by
  have h' : hud.transitioning = true ∧ hud.view = none := by
    by_contra hn
    refine h fun _ _ ht => ?_
    exact Option.isSome_iff_ne_none.mpr fun hv => hn ⟨ht, hv⟩
  exact ⟨h'.2, if_pos h'.1⟩

end ProgressHUD

/-! ## Views that stay alive -/

/-- The detail screen that a modal screen refers to. -/
def Modal.screen : Modal → Option Nat
  | .addWord _ => none
  | .addComment _ screen _ | .deleteAlert screen => some screen

namespace App

variable {a a' : App} {n : Nat}

/-- What keeps a detail screen. -/
theorem alive_iff :
    a.alive n = true ↔ a.pushed = some n ∨ a.modal.bind Modal.screen = some n ∨ n ∈ a.mainQueue ∨
      ∃ p ∈ a.net, p.call.captures = some n := by
  cases hm : a.modal with
  | none => simp [alive, hm, or_assoc]
  | some m => cases m <;> simp [alive, hm, Modal.screen, or_assoc]

/-- What keeps a screen now kept it before. -/
theorem alive_of (h : a'.alive n = true) (hp : a'.pushed = some n → a.alive n = true)
    (hm : a'.modal.bind Modal.screen = some n → a.alive n = true) (hq : n ∈ a'.mainQueue → a.alive n = true)
    (hn : ∀ p ∈ a'.net, p.call.captures = some n → a.alive n = true) : a.alive n = true := by
  rcases alive_iff.mp h with h | h | h | ⟨p, h, hc⟩
  · exact hp h
  · exact hm h
  · exact hq h
  · exact hn p h hc

theorem alive_pushed (h : a.pushed = some n) : a.alive n = true := alive_iff.mpr (.inl h)

theorem alive_modal (h : a.modal.bind Modal.screen = some n) : a.alive n = true :=
  alive_iff.mpr (.inr (.inl h))

theorem alive_queue (h : n ∈ a.mainQueue) : a.alive n = true := alive_iff.mpr (.inr (.inr (.inl h)))

theorem alive_net {p : InFlight} (h : p ∈ a.net) (hc : p.call.captures = some n) : a.alive n = true :=
  alive_iff.mpr (.inr (.inr (.inr ⟨p, h, hc⟩)))

theorem alive_issue {call : Call} (h : (a.issue call).alive n = true) :
    a.alive n = true ∨ call.captures = some n := by
  by_cases hc : call.captures = some n
  · exact .inr hc
  · refine .inl (alive_of h (fun h => alive_pushed h) (fun h => alive_modal h)
      (fun h => alive_queue h) fun p hp hpc => ?_)
    rcases mem_issue hp with hp | rfl
    · exact alive_net hp hpc
    · exact absurd hpc hc

theorem alive_take {t : Nat} (h : (a.take t).alive n = true) : a.alive n = true :=
  alive_of h (fun h => alive_pushed h) (fun h => alive_modal h) (fun h => alive_queue h) fun _ hp hc =>
    alive_net (mem_take hp) hc

theorem alive_showLoader {view : View} {b : Bool} (h : (a.showLoader view b).alive n = true) :
    a.alive n = true := by
  obtain ⟨hud, he⟩ := a.showLoader_hud view b
  rw [he] at h
  exact h

theorem alive_dismiss (h : a.dismiss.alive n = true) : a.alive n = true :=
  alive_of h (fun h => alive_pushed h) nofun (fun h => alive_queue h) fun _ hp hc => alive_net hp hc

theorem alive_fetchComment {screen : Nat} (h : (a.fetchComment screen).alive n = true) :
    a.alive n = true := by
  unfold fetchComment at h
  split at h
  · exact (alive_issue h).resolve_right nofun
  · exact h

theorem alive_commentsReloaded {screen ticket servedAt : Nat} {documents : List (Path × Dictionary)}
    (h : (a.commentsReloaded screen ticket servedAt documents).alive n = true) : a.alive n = true := by
  unfold commentsReloaded at h
  split at h
  · split at h
    next ha =>
      refine alive_of h (fun h => alive_pushed h) (fun h => alive_modal h) (fun hq => ?_) fun _ hp hc =>
        alive_net hp hc
      rcases List.mem_append.mp hq with hq | hq
      · exact alive_queue hq
      · rw [List.mem_singleton.mp hq]
        exact ha
    · exact h
  · exact h

theorem alive_addCompleted {word : Word} {imageUrl fileName now : String}
    (h : (a.addCompleted word imageUrl fileName now).alive n = true) : a.alive n = true := by
  have hwritten : (a.issue (.setData word now imageUrl fileName)).alive n = true :=
    alive_dismiss ((alive_issue (alive_showLoader h)).resolve_right nofun)
  exact (alive_issue hwritten).resolve_right nofun

theorem alive_objectDeleted {screen : Nat} (h : (a.objectDeleted screen).alive n = true) :
    a.alive n = true := by
  rw [objectDeleted_eq] at h
  refine alive_of h (fun hp => ?_) (fun h => alive_modal h) (fun h => alive_queue h) fun _ hp hc =>
    alive_net hp hc
  exact alive_pushed (Option.ite_none_left_eq_some.mp hp).2

theorem alive_answered {ticket : Nat} {call : Call} {answer : Answer} {now : String}
    (h : (a.answered ticket call answer now).alive n = true) : a.alive n = true := by
  unfold answered at h
  split at h
  · exact (alive_issue h).resolve_right nofun
  · exact alive_addCompleted h
  · exact h
  · exact alive_objectDeleted h
  · exact alive_commentsReloaded h
  · exact alive_fetchComment h
  · exact h

theorem alive_imagesFetched {word : Word} {web : Web} {fileName : UUID}
    (h : (a.imagesFetched word web fileName).alive n = true) : a.alive n = true := by
  unfold imagesFetched at h
  split at h
  · split at h
    · exact alive_showLoader h
    · unfold imageUpload at h
      split at h
      · exact (alive_issue h).resolve_right nofun
      · exact h
  · exact h

theorem alive_saveBoard {sheet : Nat} {title content : Option String} {uid : UUID} {url : Bool}
    (h : (a.saveBoard sheet title content uid url).alive n = true) : a.alive n = true := by
  unfold saveBoard at h
  split at h
  · exact h
  · unfold addContent at h
    split at h
    · exact alive_showLoader ((alive_issue h).resolve_right nofun)
    · exact alive_showLoader h

theorem alive_cellForRowAt {row : Nat} (h : (a.cellForRowAt row).alive n = true) : a.alive n = true := by
  unfold cellForRowAt at h
  split at h <;> exact h

theorem alive_commentRow {screen row : Nat} {select : Bool}
    (h : (a.commentRow screen row select).alive n = true) :
    a.alive n = true := by
  unfold commentRow at h
  repeat' split at h
  all_goals exact h

end App

/-- A detail screen that is alive after a step was so before, or is new. -/
theorem act_alive {s s' : State} {a : Action} (h : act s a = some s') {n : Nat} (ha : s'.app.alive n = true) :
    s.app.alive n = true ∨ s.app.next ≤ n := by
  cases act_iff.mp h with
  | viewDidLoad | viewWillAppear | updateData => exact .inl ((App.alive_issue ha).resolve_right nofun)
  | writing =>
    exact .inl (App.alive_of ha (fun h => App.alive_pushed h) nofun
      (fun h => App.alive_queue h) fun _ hp hc => App.alive_net hp hc)
  | saveBoard => exact .inl (App.alive_saveBoard ha)
  | swipeDown | cancelDelete => exact .inl (App.alive_dismiss ha)
  | didSelectRow hp hm hr =>
    unfold App.didSelectRow at ha
    split at ha
    · have ha := (App.alive_issue ha).resolve_right nofun
      rcases App.alive_iff.mp ha with ha | ha
      · cases ha
        exact .inr le_rfl
      · exact .inl (App.alive_iff.mpr (.inr ha))
    · exact .inl ha
  | back =>
    exact .inl (App.alive_of ha nofun (fun h => App.alive_modal h)
      (fun h => App.alive_queue h) fun _ hp hc => App.alive_net hp hc)
  | deleteWord hp hm =>
    refine .inl (App.alive_of ha (fun h => App.alive_pushed h) (fun hm => ?_)
      (fun h => App.alive_queue h) fun _ hp hc => App.alive_net hp hc)
    exact App.alive_pushed (hp.trans hm)
  | @confirmDelete screen hm =>
    have kept : s.app.alive screen = true := App.alive_modal (by rw [hm]; rfl)
    unfold App.deleteConfirmed at ha
    split at ha
    · have ha := App.alive_dismiss ha
      rcases App.alive_issue ha with ha | hc
      · exact .inl (App.alive_showLoader ((App.alive_issue ha).resolve_right nofun))
      · cases hc
        exact .inl kept
    · exact .inl ha
  | addComment hp hm =>
    unfold App.addComment at ha
    split at ha
    · refine .inl (App.alive_of ha (fun h => App.alive_pushed h) (fun hm => ?_)
        (fun h => App.alive_queue h) fun _ hp hc => App.alive_net hp hc)
      exact App.alive_pushed (hp.trans hm)
    · exact .inl ha
  | @saveComment sheet screen board text now autoID hm hf =>
    rcases App.alive_issue (App.alive_dismiss ha) with ha | hc
    · exact .inl ha
    · cases hc
      exact .inl (App.alive_modal (by rw [hm]; rfl))
  | boardRow => exact .inl (App.alive_cellForRowAt ha)
  | commentRow => exact .inl (App.alive_commentRow ha)
  | reloadTable => exact .inl ha
  | mainQueue hq =>
    refine .inl (App.alive_of ha (fun h => App.alive_pushed h) (fun h => App.alive_modal h)
      (fun hm => ?_) fun _ hp hc => App.alive_net hp hc)
    exact App.alive_queue (hq ▸ List.mem_cons_of_mem _ hm)
  | @serve p r outcome hf hn hr =>
    refine .inl (App.alive_of ha (fun h => App.alive_pushed h) (fun h => App.alive_modal h)
      (fun h => App.alive_queue h) fun q hq hc => ?_)
    rcases List.mem_append.mp hq with hq | hq
    · exact App.alive_net (App.mem_take hq) hc
    · rw [List.mem_singleton.mp hq] at hc
      exact App.alive_net (App.find_mem hf).1 hc
  | searched => exact .inl (App.alive_take (App.alive_imagesFetched ha))
  | answer => exact .inl (App.alive_take (App.alive_answered ha))

/-! ## The calls of a launch -/

/-- The number of a view is below `n`. -/
def View.Below (n : Nat) : View → Prop
  | .board => True
  | .addWord k | .detail k => k < n

theorem View.Below.mono {n m : Nat} (h : n ≤ m) {v : View} (hv : v.Below n) : v.Below m := by
  cases v with
  | board => trivial
  | addWord k | detail k => exact Nat.lt_of_lt_of_le hv h

/-- What a step does to the loader, and which call of the HUD that is. -/
inductive Shows (s s' : State) (a : Action) : Prop
  | kept (hc : s.hudCall a = none) (h : s'.app.hud = s.app.hud)
  | shown (v : View) (hc : s.hudCall a = some (.show v)) (hv : v.Below s.app.next)
      (ha : s'.app.viewAlive v = true)
      (h : s'.app.hud = (s.app.showLoader v true).hud)
  | dismissed (hc : s.hudCall a = some .dismiss) (h : s'.app.hud = none)

theorem saveBoard_shows {s : State} {sheet : Nat} {title content : Option String} {uid : UUID} {url : Bool}
    (hm : s.app.modal = some (.addWord sheet)) (hn : sheet < s.app.next) :
    Shows s { s with used := uid.uuidString :: s.used, app := s.app.saveBoard sheet title content uid url }
      (.saveBoard title content uid url) := by
  unfold App.saveBoard
  split
  next ht => exact .kept (by simp [State.hudCall, hm, ht]) rfl
  next ht =>
    have hd (w : Word) :=
      App.desk_addContent (a := (s.app.showLoader (.addWord sheet) true).record (.saved sheet w)) w url
    refine .shown (.addWord sheet) (by simp [State.hudCall, hm, ht]) hn ?_ (congrArg Desk.hud (hd _))
    obtain ⟨hud, he⟩ := s.app.showLoader_hud (.addWord sheet) true
    rw [he] at hd ⊢
    exact decide_eq_true ((congrArg Desk.modal (hd _)).trans hm)

theorem deleteConfirmed_shows {s : State} (hS : Screens s) {screen : Nat}
    (hm : s.app.modal = some (.deleteAlert screen)) :
    Shows s { s with app := s.app.deleteConfirmed screen } .confirmDelete := by
  unfold App.deleteConfirmed
  split
  next d hd =>
    refine .shown (.detail screen) (by simp [State.hudCall, hm, hd]) (hS.below screen d hd) ?_ rfl
    exact App.alive_net (List.mem_append_right _ (List.mem_singleton_self _)) rfl
  next hd => exact .kept (by simp [State.hudCall, hm, hd]) rfl

theorem searched_shows {s : State} {t : Nat} {w : Word} {web : Web} {fileName : UUID} :
    Shows s { s with
      used := fileName.uuidString :: s.used, app := (s.app.take t).imagesFetched w web fileName }
      (.searched t web fileName) := by
  unfold App.imagesFetched
  split
  next image hi =>
    split
    next he => exact .dismissed (by simp [State.hudCall, hi, he]) rfl
    next he =>
      refine .kept (by simp [State.hudCall, hi, he]) ?_
      unfold App.imageUpload
      split <;> rfl
  next hi => exact .kept (by simp [State.hudCall, hi]) rfl

theorem answered_shows {s : State} {p : InFlight} (hf : s.app.find p.ticket = some p) {answer : Answer}
    (ha : p.answer = some answer) (now : String) :
    Shows s { s with app := (s.app.take p.ticket).answered p.ticket p.call answer now }
      (.answer p.ticket now) := by
  obtain ⟨t, call, _⟩ := p
  obtain ⟨reply, servedAt⟩ := answer
  cases ha
  have kept {a' : App} (hc : s.hudCall (.answer t now) = none) (h : a'.desk.hud = (s.app.take t).desk.hud) :
      Shows s { s with app := a' } (.answer t now) := .kept hc h
  unfold App.answered
  split
  next hc _ =>
    obtain rfl : call = _ := hc
    exact kept (by simp only [State.hudCall, hf]) rfl
  next hc hr =>
    obtain rfl : call = _ := hc
    obtain rfl : reply = _ := hr
    exact .dismissed (by simp only [State.hudCall, hf]) rfl
  next hc _ =>
    obtain rfl : call = _ := hc
    exact kept (by simp only [State.hudCall, hf]) (congrArg Desk.hud (App.desk_boardLoaded ..))
  next hc hr =>
    obtain rfl : call = _ := hc
    obtain rfl : reply = _ := hr
    exact .dismissed (by simp only [State.hudCall, hf]) (by rw [App.objectDeleted_eq])
  next hc _ =>
    obtain rfl : call = _ := hc
    exact kept (by simp only [State.hudCall, hf]) (congrArg Desk.hud (App.desk_commentsReloaded ..))
  next hc =>
    obtain rfl : call = _ := hc
    exact kept (by simp only [State.hudCall, hf]) (congrArg Desk.hud (App.desk_fetchComment _))
  next hurl _ hdel _ =>
    refine kept ?_ rfl
    simp only [State.hudCall, hf]
    split
    next he =>
      cases he
      exact absurd rfl (hurl _ _ _ rfl)
    next he =>
      cases he
      exact absurd rfl (hdel _ _ rfl)
    · rfl

theorem act_shows {s s' : State} {a : Action} (hm : Moved s) (hN : Numbered s) (h : act s a = some s') :
    Shows s s' a := by
  cases act_iff.mp h with
  | saveBoard title content uid url hmod hf => exact saveBoard_shows hmod (hN.sheet _ hmod)
  | didSelectRow => exact .kept rfl (congrArg Desk.hud (App.desk_didSelectRow ..))
  | confirmDelete hmod => exact deleteConfirmed_shows hm.screens hmod
  | addComment =>
    refine .kept rfl ?_
    unfold App.addComment
    split <;> rfl
  | boardRow => exact .kept rfl (congrArg Desk.hud (App.desk_cellForRowAt ..))
  | commentRow => exact .kept rfl (congrArg Desk.hud (App.desk_commentRow ..))
  | searched => exact searched_shows
  | answer now hf ha => exact answered_shows hf ha now
  | _ => exact .kept rfl rfl

/-- A view that is alive after a step was so before, unless it is new. -/
theorem act_viewAlive {s s' : State} {a : Action} (hd : s.Distinct) (h : act s a = some s') {v : View}
    (hv : v.Below s.app.next) (ha : s'.app.viewAlive v = true) : s.app.viewAlive v = true := by
  cases v with
  | board => rfl
  | addWord n =>
    rcases (act_turn hd h).modal (of_decide_eq_true ha) with hm | ⟨rfl, -⟩
    · exact decide_eq_true hm
    · exact absurd hv (Nat.lt_irrefl _)
  | detail n => exact (act_alive h ha).resolve_right (Nat.not_le.mpr hv)

/-- The loader is over a view that exists already. -/
def State.HudBelow (s : State) : Prop := ∀ v, s.app.hud = some v → v.Below s.app.next

theorem State.HudBelow.shows {s s' : State} {a : Action} (hB : s.HudBelow) (h : Shows s s' a)
    (hn : s.app.next ≤ s'.app.next) : s'.HudBelow := by
  intro v hv
  cases h with
  | kept _ h => exact (hB v (h.symm.trans hv)).mono hn
  | shown v' _ hv' _ h =>
    rw [h, App.showLoader] at hv
    split at hv
    · exact (hB v hv).mono hn
    · cases hv
      exact hv'.mono hn
  | dismissed _ h => cases h.symm.trans hv

theorem Reach.hudBelow {s : State} (h : Reach s) : s.HudBelow := by
  refine h.inv (I := State.HudBelow) (fun s hs => by rw [State.HudBelow, hs.launch]; nofun)
    fun s a s' hr hB _ hs => ?_
  have hm := Reach.moved hr
  have hact := act_of_step hs
  exact hB.shows (act_shows hm (Reach.numbered hr) hact) (act_pushed hm.screens hm.tickets hact).1

namespace LoaderState

/-- The launch starts with a new HUD. -/
structure Start (x : LoaderState) : Prop where
  state : BlindBoard.Start x.state
  hud : x.hud = .initWithStyle

/-- The HUD hears the call that the step makes, if any. -/
def Heard (x : LoaderState) : Option Action → Prop
  | some a => ∀ call ∈ x.state.hudCall a, x.hud.Heard call
  | none => True

instance (x : LoaderState) : DecidablePred x.Heard := fun a =>
  match a with
  | some a => inferInstanceAs (Decidable (∀ call ∈ x.state.hudCall a, x.hud.Heard call))
  | none => .isTrue trivial

theorem view_released (hud : ProgressHUD View) (a : App) :
    (released hud a).view = hud.view.filter a.viewAlive := by
  unfold released
  split
  next view ht =>
    split
    next ha => cases hc : hud.closing <;> simp [ProgressHUD.view, Option.filter_some, hc, ht, ha]
    next ha =>
      have hclosing : (hud.deallocated view).closing = hud.closing := by
        rw [ProgressHUD.deallocated, if_pos ht]
        rfl
      cases hc : hud.closing <;> simp [ProgressHUD.view, ProgressHUD.deallocated,
        Option.filter_some, hc, ht, ha]
  next ht => simp [ProgressHUD.view, ht]

theorem waits_released {hud : ProgressHUD View} (h : hud.Waits) (a : App) : (released hud a).Waits := by
  unfold released
  split
  · split
    · exact h
    next view _ _ => exact h.step (e := .deallocated view) rfl
  · exact h

/-- A step of the launch calls its HUD. -/
theorem step_some {x x' : LoaderState} {a : Action} (h : x.step (some a) = some x') :
    ∃ s hud, BlindBoard.step x.state a = some s ∧
      (match x.state.hudCall a with
        | some call => x.hud.step call
        | none => some x.hud) = some hud ∧ x' = ⟨s, released hud s.app⟩ := by
  obtain ⟨s, hs, h⟩ := Option.bind_eq_some_iff.mp h
  obtain ⟨hud, hh, rfl⟩ := Option.map_eq_some_iff.mp h
  exact ⟨s, hud, hs, hh, rfl⟩

/-- A step keeps the HUD in agreement with the loader unless it shows one that is not heard. -/
theorem step_view {x x' : LoaderState} {a : Option Action} (hr : Reach x.state) (hw : x.hud.Waits)
    (hv : x.hud.view = x.state.app.loader) (h : x.step a = some x') :
    x'.hud.view = x'.state.app.loader ↔ x.Heard a := by
  cases a with
  | none =>
    obtain ⟨hud, hs, rfl⟩ := Option.map_eq_some_iff.mp h
    refine iff_of_true ?_ trivial
    have heard : x.hud.Heard .animationFinished := ProgressHUD.heard_of_ne fun _ he => by cases he
    exact (((ProgressHUD.view_step hw hs).mpr heard).trans rfl).trans hv
  | some a =>
    obtain ⟨s, hud, hs, hcall, rfl⟩ := step_some h
    have hm := Reach.moved hr
    have hact := act_of_step hs
    -- the view that the loader was over is alive only if it was so before
    have kept : x.state.app.loader.filter s.app.viewAlive = x.state.app.hud.filter s.app.viewAlive := by
      cases hh : x.state.app.hud with
      | none => simp [App.loader, hh]
      | some v =>
        have := act_viewAlive hm.distinct hact (Reach.hudBelow hr v hh)
        cases ha : s.app.viewAlive v <;> cases hb : x.state.app.viewAlive v <;>
          simp_all [App.loader, Option.filter_some]
    rw [view_released]
    cases act_shows hm (Reach.numbered hr) hact with
    | kept hc hh =>
      rw [hc] at hcall
      cases hcall
      refine iff_of_true ?_ (by simp [Heard, hc])
      rw [hv, kept, App.loader, hh]
    | dismissed hc hh =>
      rw [hc] at hcall
      have heard : x.hud.Heard .dismiss := ProgressHUD.heard_of_ne fun _ he => by cases he
      refine iff_of_true ?_ (by simpa [Heard, hc] using heard)
      rw [(ProgressHUD.view_step hw hcall).mpr heard, App.loader, hh]
      rfl
    | shown v hc _ ha hh =>
      rw [hc] at hcall
      have heard : x.Heard (some a) ↔ x.hud.Heard (.show v) := by simp [Heard, hc]
      have shown : s.app.loader = (Loader.step x.state.app.loader (.show v)).filter s.app.viewAlive := by
        rw [App.loader, hh, App.showLoader, Loader.step]
        split
        · exact kept.symm
        · rfl
      rw [heard, shown]
      constructor
      · intro he
        by_contra hn
        obtain ⟨hnone, hsame⟩ := ProgressHUD.unheard hn
        have hcall : some (x.hud.showInView v) = some hud := hcall
        rw [hsame] at hcall
        cases hcall
        rw [← hv, hnone] at he
        simp [Loader.step, Option.filter_some, ha] at he
      · intro hheard
        rw [(ProgressHUD.view_step hw hcall).mpr hheard, hv]

/-- A step of a launch with its HUD is a step of the launch or of its HUD alone. -/
theorem step_keeps {x x' : LoaderState} {a : Option Action} (hr : Reach x.state) (hw : x.hud.Waits)
    (h : x.step a = some x') : Reach x'.state ∧ x'.hud.Waits := by
  cases a with
  | none =>
    obtain ⟨hud, hs, rfl⟩ := Option.map_eq_some_iff.mp h
    exact ⟨hr, hw.step hs⟩
  | some a =>
    obtain ⟨s, hud, hs, hcall, rfl⟩ := step_some h
    refine ⟨hr.snoc trivial hs, waits_released ?_ _⟩
    cases hc : x.state.hudCall a with
    | none =>
      rw [hc] at hcall
      cases hcall
      exact hw
    | some call =>
      rw [hc] at hcall
      exact hw.step hcall

theorem Start.keeps {x : LoaderState} (h : x.Start) : Reach x.state ∧ x.hud.Waits :=
  ⟨⟨_, [], h.state, .nil⟩, h.hud ▸ ProgressHUD.waits_initial⟩

end LoaderState

/-- All along a run of a launch its HUD is over the view of its loader, exactly if each `show` of
the run finds the HUD at rest or over a view. -/
theorem launch_loader_iff {x x' : LoaderState} {as : List (Option Action)} (h₀ : x.Start)
    (h : run LoaderState.step x as = some x') :
    (∀ bs y, bs <+: as → run LoaderState.step x bs = some y → y.hud.view = y.state.app.loader) ↔
      Runs LoaderState.step LoaderState.Heard x as x' := by
  let I (y : LoaderState) : Prop := (Reach y.state ∧ y.hud.Waits) ∧ y.hud.view = y.state.app.loader
  have hI : I x := ⟨h₀.keeps, by rw [h₀.hud, h₀.state.launch]; rfl⟩
  have hiff (y : LoaderState) (a : Option Action) (y' : LoaderState) (hy : I y) (hs : y.step a = some y') :
      I y' ↔ y.Heard a :=
    ⟨fun h => (LoaderState.step_view hy.1.1 hy.1.2 hy.2 hs).mp h.2, fun h =>
      ⟨LoaderState.step_keeps hy.1.1 hy.1.2 hs, (LoaderState.step_view hy.1.1 hy.1.2 hy.2 hs).mpr h⟩⟩
  rw [← runs_iff_inv hiff hI h]
  refine forall₄_congr fun bs y _ hs => ⟨fun hv => ⟨?_, hv⟩, And.right⟩
  exact (runs_of_run hs).inv (fun _ _ _ hk _ hs => LoaderState.step_keeps hk.1 hk.2 hs) h₀.keeps

/-- A launch with a new HUD. -/
def LoaderState.launch : LoaderState := ⟨State.empty (some phone), .initWithStyle⟩

/-- An image search that finds no photo. -/
def nothing : Web where
  data := some (some (.object [("photos", .array [])]))
  url _ := true
  contents _ := none
  image _ := none
  jpegData _ := none

/-- A search finds nothing, and the word is saved again while the loader goes. -/
def savedAgain : List (Option Action) :=
  [some .writing, some (.saveBoard (some "cat") (some "a word") uuid₁ true),
    none, some (.searched 1 nothing uuid₂),
    some (.saveBoard (some "cat") (some "a word") uuid₃ true), none]

/-- The second save is shown no loader. -/
theorem savedAgain_end :
    ∃ x, run LoaderState.step .launch savedAgain = some x ∧ x.hud.view ≠ x.state.app.loader :=
  exists_run (by decide +kernel)

theorem launch_loader_savedAgain : ∃ x, run LoaderState.step .launch savedAgain = some x ∧
    ¬ Runs LoaderState.step LoaderState.Heard .launch savedAgain x := by
  obtain ⟨x, hs, hne⟩ := savedAgain_end
  refine ⟨x, hs, fun h => hne ?_⟩
  exact (launch_loader_iff ⟨start_empty _, rfl⟩ hs).mpr h _ _ List.prefix_rfl hs

/-! ## A dismissal -/

namespace ProgressHUD

section Dismissed

variable {V : Type} {hud hud' : ProgressHUD V}

/-- The HUD is over no view, or goes by itself. -/
def Dismissed (hud : ProgressHUD V) : Prop :=
  if hud.transitioning then hud.closing = true else hud.targetView = none

/-- The animations that the HUD has yet to finish until it is gone. -/
def left (hud : ProgressHUD V) : ℕ := if hud.transitioning then (if hud.presenting then 2 else 1) else 0

theorem dismissed_dismissAnimated (hud : ProgressHUD V) : hud.dismissAnimated.Dismissed := by
  unfold dismissAnimated Dismissed
  split
  next ht => simp [ht, closing]
  next ht =>
    cases hv : hud.targetView <;> simp [ht, hv, closing]

theorem Dismissed.view (h : hud.Dismissed) : hud.view = none := by
  unfold Dismissed at h
  unfold ProgressHUD.view
  split at h
  · rw [if_pos h]
  · rw [h, ite_self]

theorem left_le (hud : ProgressHUD V) : hud.left ≤ 2 := by
  unfold left
  repeat' split
  all_goals omega

/-- An animation that finishes leaves less to finish. -/
theorem Dismissed.animationFinished (h : hud.Dismissed) (ht : hud.transitioning = true) :
    hud.animationFinished.Dismissed ∧ hud.animationFinished.left < hud.left := by
  obtain ⟨target, transitioning, presenting, pending⟩ := hud
  cases ht
  cases presenting with
  | false => exact ⟨rfl, Nat.one_pos⟩
  | true =>
    cases pending with
    | false => simp [Dismissed, closing] at h
    | true =>
      cases target with
      | none => exact ⟨rfl, Nat.two_pos⟩
      | some view => exact ⟨rfl, Nat.one_lt_two⟩

variable [DecidableEq V]

theorem Dismissed.deallocated (h : hud.Dismissed) (view : V) :
    (hud.deallocated view).Dismissed ∧ (hud.deallocated view).left = hud.left := by
  unfold ProgressHUD.deallocated
  split
  · refine ⟨?_, rfl⟩
    unfold Dismissed at h ⊢
    split
    next ht => rwa [if_pos ht] at h
    · rfl
  · exact ⟨h, rfl⟩

/-- Only a `show` brings back a HUD that is dismissed. -/
theorem Dismissed.step (h : hud.Dismissed) {e : HUDEvent V} (he : ∀ view, e ≠ .show view)
    (hs : hud.step e = some hud') :
    hud'.Dismissed ∧ hud'.left ≤ hud.left ∧ (e = .animationFinished → hud'.left < hud.left) := by
  cases e with
  | «show» view => exact absurd rfl (he view)
  | dismiss =>
    cases hs
    refine ⟨dismissed_dismissAnimated hud, Nat.le_of_eq ?_, nofun⟩
    unfold Dismissed at h
    unfold dismissAnimated
    split
    · rfl
    next ht => rw [if_pos (by rw [if_neg ht] at h; rw [h]; rfl)]
  | animationFinished =>
    obtain ⟨ht, hs⟩ := Option.ite_none_right_eq_some.mp hs
    cases hs
    obtain ⟨hd, hlt⟩ := h.animationFinished ht
    exact ⟨hd, hlt.le, fun _ => hlt⟩
  | deallocated view =>
    cases hs
    obtain ⟨hd, hle⟩ := h.deallocated view
    exact ⟨hd, hle.le, nofun⟩

end Dismissed

end ProgressHUD

namespace LoaderState

/-- The step does not show the loader. -/
def Unshown (x : LoaderState) : Option Action → Prop
  | some a => ∀ view, x.state.hudCall a ≠ some (.show view)
  | none => True

instance (x : LoaderState) : DecidablePred x.Unshown := fun a =>
  match a with
  | some a => match h : x.state.hudCall a with
    | some (.show view) => .isFalse fun hn => hn view h
    | none | some .dismiss | some .animationFinished | some (.deallocated _) =>
      .isTrue fun view hv => by cases h.symm.trans hv
  | none => .isTrue trivial

theorem dismissed_released {hud : ProgressHUD View} (h : hud.Dismissed) (a : App) :
    (released hud a).Dismissed ∧ (released hud a).left = hud.left := by
  unfold released
  split
  · split
    · exact ⟨h, rfl⟩
    · exact h.deallocated _
  · exact ⟨h, rfl⟩

theorem dismissed_step {x x' : LoaderState} {a : Option Action} (h : x.hud.Dismissed) (ha : x.Unshown a)
    (hs : x.step a = some x') :
    x'.hud.Dismissed ∧ x'.hud.left + (if a.isNone then 1 else 0) ≤ x.hud.left := by
  cases a with
  | none =>
    obtain ⟨hud, hfinished, rfl⟩ := Option.map_eq_some_iff.mp hs
    obtain ⟨hd, -, hlt⟩ := h.step (e := .animationFinished) nofun hfinished
    exact ⟨hd, hlt rfl⟩
  | some a =>
    obtain ⟨s, hud, -, hcall, rfl⟩ := step_some hs
    have hd : hud.Dismissed ∧ hud.left ≤ x.hud.left := by
      cases hc : x.state.hudCall a with
      | none =>
        rw [hc] at hcall
        cases hcall
        exact ⟨h, Nat.le_refl _⟩
      | some call =>
        rw [hc] at hcall
        obtain ⟨hd, hle, -⟩ := h.step (fun view hv => ha view (hv ▸ hc)) hcall
        exact ⟨hd, hle⟩
    obtain ⟨hrel, hleft⟩ := dismissed_released hd.1 s.app
    exact ⟨hrel, hleft.trans_le hd.2⟩

end LoaderState

/-- A dismissal is not lost: until a loader is shown again the HUD is over no view but one that it
is leaving, and after at most two animations it is over none. -/
theorem dismiss_kept {x y z : LoaderState} {a : Action} {as : List (Option Action)}
    (hc : x.state.hudCall a = some .dismiss) (hs : x.step (some a) = some y)
    (hr : Runs LoaderState.step LoaderState.Unshown y as z) :
    z.hud.view = none ∧ as.countP Option.isNone ≤ 2 ∧
    (z.hud.transitioning = false → z.hud.targetView = none) := by
  have hy : y.hud.Dismissed := by
    obtain ⟨s, hud, -, hcall, rfl⟩ := LoaderState.step_some hs
    rw [hc] at hcall
    cases hcall
    exact (LoaderState.dismissed_released (ProgressHUD.dismissed_dismissAnimated _) _).1
  obtain ⟨hz, hle⟩ := hr.inv_countP_le (I := fun x => x.hud.Dismissed) (μ := fun x => x.hud.left)
    (fun _ _ _ => LoaderState.dismissed_step) hy
  refine ⟨hz.view, ?_, fun ht => ?_⟩
  · have := y.hud.left_le
    omega
  · rwa [ProgressHUD.Dismissed, ht, if_neg Bool.false_ne_true] at hz

/-- The search for a photo ends while the loader still comes. -/
theorem dismiss_kept_cat : ∃ x y z : LoaderState, x.step (some (.searched 1 nothing uuid₂)) = some y ∧
    Runs LoaderState.step LoaderState.Unshown y [none, none] z ∧ z.hud.view = none ∧
      List.countP Option.isNone [(none : Option Action), none] ≤ 2 ∧
      (z.hud.transitioning = false → z.hud.targetView = none) := by
  have hsave : ∃ x, run LoaderState.step .launch (savedAgain.take 2) = some x ∧
      x.state.hudCall (.searched 1 nothing uuid₂) = some .dismiss ∧
      ((x.step (some (.searched 1 nothing uuid₂))).any fun y =>
        (run (guarded LoaderState.step LoaderState.Unshown) y [none, none]).isSome) = true :=
    exists_run (P := fun _ => _ ∧ _) (by decide +kernel)
  obtain ⟨x, -, hc, hy⟩ := hsave
  obtain ⟨y, hs, hz⟩ := (Option.any_eq_true _ _).mp hy
  obtain ⟨z, hz⟩ := Option.isSome_iff_exists.mp hz
  exact ⟨x, y, z, hs, runs_of_run_guarded hz, dismiss_kept hc hs (runs_of_run_guarded hz)⟩

end BlindBoard
