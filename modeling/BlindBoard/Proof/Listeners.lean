import BlindBoard.Impl.GetDocuments
import BlindBoard.Proof.Changes
import BlindBoard.Proof.Results

/-!
# The listeners of a query

What a notification makes of the listeners (`Notified`): each handles it by itself, and raises
an event for its call or none. Between two steps a client is sound (`Client.Sound`): it has a
view exactly as long as it has listeners, the last snapshot is that of the view, every
listener has it, and one that has raised no event waits for a sync.
-/

namespace BlindBoard.Firestore

open Lib

variable {q : Query}

/-- The snapshot is not one with no changes. -/
def ViewSnapshot.Tells (snapshot : ViewSnapshot q) : Prop :=
  (snapshot.documentChanges.isEmpty && !snapshot.syncStateChanged) = false

/-- The snapshot has the documents of the view, and its sync state; its changes lead to
these documents. -/
structure ViewSnapshot.Of (snapshot : ViewSnapshot q) (view : View q) : Prop where
  documents : snapshot.documents.toList = view.documentSet.toList
  fromCache : snapshot.fromCache = decide (view.syncState = .local)
  exact : snapshot.Exact

namespace QueryListener

variable {l : QueryListener q} {snapshot : ViewSnapshot q} {onlineState : OnlineState}

/-- A listener of `GetDocuments` waits for a sync unless the client is offline. -/
theorem shouldRaiseInitialEvent_eq (snapshot : ViewSnapshot q) (onlineState : OnlineState)
    (ho : l.options = getDocumentsOptions) :
    l.shouldRaiseInitialEvent snapshot onlineState =
      (!snapshot.fromCache || decide (onlineState = .offline)) := by
  unfold shouldRaiseInitialEvent
  rw [ho]
  cases snapshot.fromCache with
  | false => rfl
  | true => cases onlineState <;> simp [getDocumentsOptions]

/-- The listener has the last snapshot, and waits for a sync if it has raised no event. -/
structure Tuned (onlineState : OnlineState) (snapshot : ViewSnapshot q) (l : QueryListener q) : Prop where
  options : l.options = getDocumentsOptions
  online : l.onlineState = onlineState
  last : l.snapshot = some snapshot
  waits : l.raisedInitialEvent = false → snapshot.fromCache = true ∧ onlineState ≠ .offline

/-- What a listener makes of a notification. -/
structure Raising (onlineState : OnlineState) (snapshot : ViewSnapshot q) (l : QueryListener q)
    (r : QueryListener q × Option (ViewSnapshot q)) : Prop where
  raised : r.1.raisedInitialEvent = (l.raisedInitialEvent || r.2.isSome)
  tuned : r.1.Tuned onlineState snapshot
  first : l.raisedInitialEvent = false → ∀ event, r.2 = some event → event = initialEvent snapshot ∧
    (snapshot.fromCache = true → onlineState = .offline)

theorem onViewSnapshot_raising (ho : l.options = getDocumentsOptions) (ht : snapshot.Tells) :
    ∃ r, l.onViewSnapshot snapshot = some r ∧ Raising l.onlineState snapshot l r := by
  have hs := shouldRaiseInitialEvent_eq snapshot l.onlineState ho
  have hi : l.options.includeDocumentMetadataChanges = true := by rw [ho]; rfl
  unfold onViewSnapshot
  rw [if_neg (by rw [ht]; simp)]
  cases hr : l.raisedInitialEvent with
  | true =>
    simp only [hi, if_true, Bool.not_true, Bool.false_eq_true, if_false]
    refine ⟨_, rfl, ?_, ⟨ho, rfl, rfl, fun h => by cases h⟩, fun h => ?_⟩
    · rw [hr]
      rfl
    · rw [hr] at h
      cases h
  | false =>
    simp only [hi, if_true, Bool.not_false, hs]
    cases hc : (!snapshot.fromCache || decide (l.onlineState = .offline)) with
    | true =>
      refine ⟨_, rfl, ?_, ⟨ho, rfl, rfl, fun h => by cases h⟩, fun _ event he => ?_⟩
      · rw [hr]
        rfl
      · cases he
        exact ⟨rfl, fun hf => by simpa [hf] using hc⟩
    | false =>
      refine ⟨_, rfl, ?_, ⟨ho, rfl, rfl, fun _ => by simpa using hc⟩, fun _ event he => by cases he⟩
      rw [hr]
      rfl

theorem onOnlineStateChanged_raising {onlineState' : OnlineState} (h : l.Tuned onlineState snapshot) :
    Raising onlineState' snapshot l (l.onOnlineStateChanged onlineState') := by
  obtain ⟨options, raised, _, _⟩ := l
  obtain ⟨ho, hon, hlast, -⟩ := h
  dsimp only at ho hon hlast
  subst ho hon hlast
  unfold onOnlineStateChanged
  dsimp only
  rw [shouldRaiseInitialEvent_eq snapshot onlineState' rfl]
  cases raised with
  | true => exact ⟨rfl, ⟨rfl, rfl, rfl, fun h => by cases h⟩, fun h => by cases h⟩
  | false =>
    cases hc : (!snapshot.fromCache || decide (onlineState' = .offline)) with
    | true =>
      refine ⟨rfl, ⟨rfl, rfl, rfl, fun h => by cases h⟩, fun _ event he => ?_⟩
      cases he
      refine ⟨rfl, fun hf => ?_⟩
      rw [hf] at hc
      simpa using hc
    | false => exact ⟨rfl, ⟨rfl, rfl, rfl, fun _ => by simpa using hc⟩, fun _ event he => by cases he⟩

end QueryListener

/-- The changes of a pass that notes none leave the documents as they are. -/
theorem Noted.toList_eq {old : DocumentSet q} {c : ViewDocumentChanges q}
    (h : Noted old c) (hc : View.sortedChanges q c.changeSet = []) :
    c.documentSet.toList = old.toList := by
  have hnil : c.changeSet.entries = [] := by
    have hp : (View.sortedChanges q c.changeSet).Perm (c.changeSet.entries.map Sigma.snd) :=
      List.perm_insertionSort _ _
    rw [hc] at hp
    exact List.map_eq_nil_iff.mp hp.symm.eq_nil
  refine DocumentSet.toList_eq fun key => ?_
  have hch := h.changed key
  have hnone : c.changeSet.lookup key = none := by
    rw [AList.lookup, hnil]
    rfl
  rw [hnone] at hch
  generalize c.documentSet.getDocument key = new at hch
  cases hch
  rfl

namespace Client

variable {c c' : Client q} {view : View q} {snapshot : ViewSnapshot q}
  {listeners : List (ℕ × QueryListener q)}

theorem deliver_eq (handle : QueryListener q → Option (QueryListener q × Option (ViewSnapshot q)))
    (P : QueryListener q → QueryListener q × Option (ViewSnapshot q) → Prop)
    (h : ∀ x ∈ listeners, ∃ r, handle x.2 = some r ∧ P x.2 r) :
    ∃ f : QueryListener q → QueryListener q × Option (ViewSnapshot q), (∀ x ∈ listeners, P x.2 (f x.2)) ∧
      deliver handle listeners = some (listeners.map fun x => (x.1, (f x.2).1),
        listeners.filterMap fun x => (f x.2).2.map fun snapshot => (x.1, some snapshot)) := by
  refine ⟨fun l => (handle l).getD (l, none), fun x hx => ?_, ?_⟩
  · obtain ⟨r, hr, hP⟩ := h x hx
    simpa only [hr, Option.getD_some] using hP
  · induction listeners with
    | nil => rfl
    | cons x listeners ih =>
      obtain ⟨r, hr, -⟩ := h x List.mem_cons_self
      obtain ⟨call, l⟩ := x
      dsimp only at hr
      simp only [deliver, hr, ih fun y hy => h y (List.mem_cons_of_mem _ hy),
        bind, Option.bind, List.map_cons,
        List.filterMap_cons, Option.getD_some]
      cases r.2 <;> rfl

/-- The client has brought the snapshot to its listeners, or an online state. -/
structure Notified (snapshot : ViewSnapshot q) (listeners : List (ℕ × QueryListener q))
    (c c' : Client q) : Prop where
  documents : c'.documents = c.documents
  view : c'.view = c.view
  workerQueue : c'.workerQueue = c.workerQueue
  calls : c'.calls = c.calls
  next : c'.next = c.next
  handled : ∃ f : QueryListener q → QueryListener q × Option (ViewSnapshot q),
    (∀ x ∈ listeners, QueryListener.Raising c'.onlineState snapshot x.2 (f x.2)) ∧
    c'.queries = some ⟨listeners.map fun x => (x.1, (f x.2).1), some snapshot⟩ ∧
    c'.executor = c.executor ++ listeners.filterMap fun x => (f x.2).2.map fun snapshot =>
      (x.1, some snapshot)

/-- The view of the client and its listeners agree on the snapshot. -/
structure Listening (c : Client q) (view : View q) (listeners : List (ℕ × QueryListener q))
    (snapshot : ViewSnapshot q) : Prop where
  viewed : c.view = some view
  queried : c.queries = some ⟨listeners, some snapshot⟩
  sound : view.Sound c.documents
  tells : snapshot.Tells
  of : snapshot.Of view
  tuned : ∀ x ∈ listeners, x.2.Tuned c.onlineState snapshot

/-- A client between two steps. -/
def Sound (c : Client q) : Prop :=
  c.view = none ∧ c.queries = none ∨ ∃ view listeners snapshot, c.Listening view listeners snapshot

theorem Notified.listening (h : Notified snapshot listeners c c') (hv : c.view = some view)
    (hs : view.Sound c.documents)
    (ht : snapshot.Tells) (ho : snapshot.Of view) : ∃ listeners', c'.Listening view listeners' snapshot := by
  obtain ⟨f, hf, hq, -⟩ := h.handled
  refine ⟨_, h.view.trans hv, hq, h.documents ▸ hs, ht, ho, fun y hy => ?_⟩
  obtain ⟨x, hx, rfl⟩ := List.mem_map.mp hy
  exact (hf x hx).tuned

theorem onViewSnapshots_notified {old : Option (ViewSnapshot q)} (hq : c.queries = some ⟨listeners, old⟩)
    (ht : snapshot.Tells)
    (hl : ∀ x ∈ listeners, x.2.options = getDocumentsOptions ∧ x.2.onlineState = c.onlineState) :
    ∃ c', c.onViewSnapshots (some snapshot) = some c' ∧ Notified snapshot listeners c c' ∧
    c'.onlineState = c.onlineState := by
  obtain ⟨f, hf, hd⟩ := deliver_eq (fun l => l.onViewSnapshot snapshot)
    (QueryListener.Raising c.onlineState snapshot) fun x hx => by
      obtain ⟨ho, hon⟩ := hl x hx
      exact hon ▸ QueryListener.onViewSnapshot_raising ho ht
  unfold onViewSnapshots
  rw [hq]
  dsimp only
  rw [hd, Option.map_some]
  exact ⟨_, rfl, ⟨rfl, rfl, rfl, rfl, rfl, f, hf, rfl, rfl⟩, rfl⟩

theorem handleOnlineStateChange_notified (hq : c.queries = some ⟨listeners, some snapshot⟩)
    (onlineState : OnlineState)
    (hl : ∀ x ∈ listeners, x.2.Tuned c.onlineState snapshot) :
    ∃ c', c.handleOnlineStateChange onlineState = some c' ∧ Notified snapshot listeners c c' ∧
    c'.onlineState = onlineState := by
  obtain ⟨f, hf, hd⟩ := deliver_eq (fun l => some (l.onOnlineStateChanged onlineState))
    (QueryListener.Raising onlineState snapshot) fun x hx =>
      ⟨_, rfl, QueryListener.onOnlineStateChanged_raising (hl x hx)⟩
  unfold handleOnlineStateChange
  rw [hq]
  dsimp only
  rw [hd, Option.map_some]
  exact ⟨_, rfl, ⟨rfl, rfl, rfl, rfl, rfl, f, hf, rfl, rfl⟩, rfl⟩

/-- The snapshot of a change of the view is brought to the listeners; where there is none,
they have it. -/
theorem brought {c : ViewDocumentChanges q} {targetChange : Option TargetChange}
    {view view' : View q} {change : ViewChange q}
    {cl : Client q} (ha : view.Applied c targetChange view' change) (hn : Noted view.documentSet c)
    (hq : cl.queries = some ⟨listeners, some snapshot⟩) (ht : snapshot.Tells) (ho : snapshot.Of view)
    (hl : ∀ x ∈ listeners, x.2.Tuned cl.onlineState snapshot) :
    ∃ cl' snapshot', cl.onViewSnapshots change.snapshot = some cl' ∧ Notified snapshot' listeners cl cl' ∧
      cl'.onlineState = cl.onlineState ∧ snapshot'.Tells ∧ snapshot'.Of view' := by
  cases hs : change.snapshot with
  | some snapshot' =>
    have hp := ha.pictures snapshot' hs
    have hnew := ha.snapshot.mp (by rw [hs]; rfl)
    have ht' : snapshot'.Tells := by
      rw [ViewSnapshot.Tells, hp.documentChanges, hp.syncStateChanged]
      rcases hnew with h | h
      · simp [h]
      · simp [h]
    obtain ⟨cl', hc, hnot, hon⟩ := onViewSnapshots_notified hq ht' fun x hx =>
      ⟨(hl x hx).options, (hl x hx).online⟩
    exact ⟨cl', snapshot', hc, hnot, hon, ht', hp.documents ▸ rfl, hp.fromCache, ha.exact hn hs⟩
  | none =>
    obtain ⟨hsort, hsync⟩ := not_or.mp fun h => by simpa [hs] using ha.snapshot.mpr h
    refine ⟨cl, snapshot, ?_, ⟨rfl, rfl, rfl, rfl, rfl, fun l => (l, none), fun x hx => ?_, ?_, ?_⟩,
      rfl, ht, ?_, ?_, ho.exact⟩
    · unfold onViewSnapshots
      rfl
    · exact ⟨by simp, hl x hx, fun _ _ h => by cases h⟩
    · simp [hq]
    · simp
    · rw [ho.documents, ha.documentSet, hn.toList_eq (not_not.mp hsort)]
    · rw [ho.fromCache, not_not.mp hsync]

end Client

end BlindBoard.Firestore
