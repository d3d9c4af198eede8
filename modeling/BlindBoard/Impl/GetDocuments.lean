import Mathlib.Logic.Function.Basic
import BlindBoard.Impl.View

/-!
# `getDocuments` of the Firestore client

A `getDocuments` of a query listens to it for one event. The calls of a query share
one view: the worker queue adds and removes their listeners, and brings the view new
documents, target changes and online states. An event for a call is posted to the
user's executor, which hands it to the call's callback; the first snapshot mutes the
call and has its listener removed. The caller's thread, the worker queue and the
executor take their steps in any order, and each queue in its own.

`Client.step` is `none` where the source fails hard, be it in an assertion, in changes that
cannot be merged or in documents that cannot be compared.
-/

namespace BlindBoard.Firestore

open Lib

/-! ## `QueryListener` -/

structure ListenOptions where
  includeQueryMetadataChanges : Bool
  includeDocumentMetadataChanges : Bool
  waitForSyncWhenOnline : Bool
  deriving DecidableEq

/-- The options of `GetDocuments`. -/
def getDocumentsOptions : ListenOptions := ⟨true, true, true⟩

namespace ViewSnapshot

variable {q : Query}

def hasPendingWrites (snapshot : ViewSnapshot q) : Bool := !snapshot.mutatedKeys.toList.isEmpty

def fromInitialDocuments (documents : DocumentSet q) (mutatedKeys : DocumentKeySet) (fromCache : Bool) :
    ViewSnapshot q where
  documents
  oldDocuments := .empty
  documentChanges := documents.toList.map fun doc => ⟨doc, .added⟩
  mutatedKeys
  fromCache
  syncStateChanged := true

end ViewSnapshot

structure QueryListener (q : Query) where
  options : ListenOptions
  raisedInitialEvent : Bool
  onlineState : OnlineState
  snapshot : Option (ViewSnapshot q)

namespace QueryListener

variable {q : Query}

def create (options : ListenOptions) : QueryListener q := ⟨options, false, .unknown, none⟩

def shouldRaiseInitialEvent (l : QueryListener q) (snapshot : ViewSnapshot q)
    (onlineState : OnlineState) : Bool :=
  if !snapshot.fromCache then true
  else
    -- an unknown state counts as online
    let maybeOnline := onlineState ≠ .offline
    if l.options.waitForSyncWhenOnline && maybeOnline then false
    else !snapshot.documents.toList.isEmpty || onlineState = .offline

def shouldRaiseEvent (l : QueryListener q) (snapshot : ViewSnapshot q) : Bool :=
  if !snapshot.documentChanges.isEmpty then true
  else
    let hasPendingWritesChanged := l.snapshot.any fun s => s.hasPendingWrites ≠ snapshot.hasPendingWrites
    if snapshot.syncStateChanged || hasPendingWritesChanged then
      l.options.includeQueryMetadataChanges else false

/-- `RaiseInitialEvent`: the event that is raised. -/
def initialEvent (snapshot : ViewSnapshot q) : ViewSnapshot q :=
  .fromInitialDocuments snapshot.documents snapshot.mutatedKeys snapshot.fromCache

/-- `OnViewSnapshot`: the listener and the event that it raises. -/
def onViewSnapshot (l : QueryListener q) (snapshot : ViewSnapshot q) :
    Option (QueryListener q × Option (ViewSnapshot q)) :=
  -- a new snapshot with no changes
  if snapshot.documentChanges.isEmpty && !snapshot.syncStateChanged then none
  else
    let snapshot :=
      if l.options.includeDocumentMetadataChanges then snapshot
      else { snapshot with
        documentChanges := snapshot.documentChanges.filter fun change => change.type ≠ .metadata }
    let l' := { l with snapshot := some snapshot }
    if !l.raisedInitialEvent then
      if l.shouldRaiseInitialEvent snapshot l.onlineState then
        some ({ l' with raisedInitialEvent := true }, some (initialEvent snapshot))
      else some (l', none)
    else some (l', if l.shouldRaiseEvent snapshot then some snapshot else none)

def onOnlineStateChanged (l : QueryListener q) (onlineState : OnlineState) :
    QueryListener q × Option (ViewSnapshot q) :=
  let l := { l with onlineState }
  match l.snapshot with
  | some snapshot =>
    if !l.raisedInitialEvent && l.shouldRaiseInitialEvent snapshot onlineState then
      ({ l with raisedInitialEvent := true }, some (initialEvent snapshot))
    else (l, none)
  | none => (l, none)

end QueryListener

/-! ## The client -/

/-- What the worker queue is to do for a call. -/
inductive WorkerTask where
  | addQueryListener (call : ℕ)
  | removeQueryListener (call : ℕ)
  deriving DecidableEq

/-- `QueryListenersInfo`: the listeners of a query with their calls, and the query's last snapshot. -/
structure QueryListenersInfo (q : Query) where
  listeners : List (ℕ × QueryListener q)
  viewSnapshot : Option (ViewSnapshot q)

/-- `ListenOnce`, with the registration that it waits for. -/
structure ListenOnce (q : Query) where
  /-- The call has its `ListenerRegistration`. -/
  resolved : Bool
  /-- `muted_` of its `AsyncEventListener`. -/
  muted : Bool
  /-- What the callback was called with: snapshots, and errors. -/
  answers : List (Option (ViewSnapshot q))

/-- The client as it serves one query. -/
structure Client (q : Query) where
  /-- The documents of the local store. -/
  documents : DocumentMap
  /-- `online_state_` of the event manager. -/
  onlineState : OnlineState
  /-- The entry of the query in `query_views_by_query_`. -/
  view : Option (View q)
  /-- The entry of the query in `queries_`. -/
  queries : Option (QueryListenersInfo q)
  workerQueue : List WorkerTask
  /-- The events that the user's executor has not run: snapshots, and errors. -/
  executor : List (ℕ × Option (ViewSnapshot q))
  calls : ℕ → ListenOnce q
  /-- The number of the next call. -/
  next : ℕ

namespace Client

variable {q : Query}

/-- A client that knows the given documents. -/
def new (documents : DocumentMap) : Client q :=
  ⟨documents, .unknown, none, none, [], [], fun _ => ⟨false, false, []⟩, 0⟩

/-! ## The event manager -/

/-- Each listener handles what comes, and raises an event or none. -/
def deliver (handle : QueryListener q → Option (QueryListener q × Option (ViewSnapshot q))) :
    List (ℕ × QueryListener q) → Option (List (ℕ × QueryListener q) × List (ℕ × Option (ViewSnapshot q)))
  | [] => some ([], [])
  | (call, l) :: listeners => do
    let (l, event) ← handle l
    let (listeners, events) ← deliver handle listeners
    some ((call, l) :: listeners, (event.map fun snapshot => (call, some snapshot)).toList ++ events)

/-- `OnViewSnapshots`, with a snapshot or none. -/
def onViewSnapshots (c : Client q) (snapshot : Option (ViewSnapshot q)) : Option (Client q) :=
  match snapshot, c.queries with
  | some snapshot, some queryInfo =>
    (deliver (fun l => l.onViewSnapshot snapshot) queryInfo.listeners).map fun (listeners, events) =>
      { c with queries := some ⟨listeners, some snapshot⟩, executor := c.executor ++ events }
  | _, _ => some c

/-- `HandleOnlineStateChange` of the event manager. -/
def handleOnlineStateChange (c : Client q) (onlineState : OnlineState) : Option (Client q) :=
  match c.queries with
  | some queryInfo =>
    (deliver (fun l => some (l.onOnlineStateChanged onlineState)) queryInfo.listeners).map
      fun (listeners, events) =>
      { c with onlineState, queries := some { queryInfo with listeners }, executor := c.executor ++ events }
  | none => some { c with onlineState }

/-- `OnError`: every listener gets the error, and none stays. -/
def onError (c : Client q) : Client q :=
  match c.queries with
  | some queryInfo =>
    { c with queries := none, executor := c.executor ++ queryInfo.listeners.map fun l => (l.1, none) }
  | none => c

/-! ## The worker queue -/

/-- `Listen` of the sync engine; `mirror` is the sync state of another query on the same target. -/
def listen (c : Client q) (remoteKeys : DocumentKeySet) (mirror : Option SyncState) : Option (Client q) :=
  if c.view.isSome then none
  else do
    let targetChange := mirror.map fun syncState : SyncState =>
      (⟨syncState = .synced, .empty, .empty, .empty⟩ : TargetChange)
    let (view, change) ← View.initializeView q c.documents remoteKeys targetChange
    let snapshot ← change.snapshot
    { c with view := some view }.onViewSnapshots (some snapshot)

def addQueryListener (c : Client q) (call : ℕ) (remoteKeys : DocumentKeySet)
    (mirror : Option SyncState) : Option (Client q) :=
  let (l, raised) := (QueryListener.create getDocumentsOptions).onOnlineStateChanged c.onlineState
  if raised.isSome then none
  else
    match c.queries with
    | some ⟨listeners, some snapshot⟩ =>
      (l.onViewSnapshot snapshot).map fun (l, event) =>
        { c with
          queries := some ⟨listeners ++ [(call, l)], some snapshot⟩
          executor := c.executor ++ (event.map fun snapshot => (call, some snapshot)).toList }
    | some ⟨listeners, none⟩ => some { c with queries := some ⟨listeners ++ [(call, l)], none⟩ }
    | none => { c with queries := some ⟨[(call, l)], none⟩ }.listen remoteKeys mirror

/-- `RemoveQueryListener`; the last listener stops listening. -/
def removeQueryListener (c : Client q) (call : ℕ) : Option (Client q) :=
  match c.queries with
  | none => some c
  | some queryInfo =>
    let listeners := queryInfo.listeners.filter fun l => l.1 ≠ call
    if listeners.isEmpty then
      if c.view.isSome then some { c with queries := none, view := none } else none
    else some { c with queries := some { queryInfo with listeners } }

/-- The next task of the worker queue. -/
def work (c : Client q) (remoteKeys : DocumentKeySet) (mirror : Option SyncState) : Option (Client q) :=
  match c.workerQueue with
  | [] => some c
  | .addQueryListener call :: tasks => { c with workerQueue := tasks }.addQueryListener call remoteKeys mirror
  | .removeQueryListener call :: tasks => { c with workerQueue := tasks }.removeQueryListener call

/-- Documents of the local store have changed. -/
def documentsChanged (c : Client q) (changes : DocumentMap) (targetChange : Option TargetChange) :
    Option (Client q) :=
  let c := { c with documents := c.documents.update changes }
  match c.view with
  | some view => do
    let (view, change) ← view.emitNewSnapshot c.documents changes targetChange
    { c with view := some view }.onViewSnapshots change.snapshot
  | none => some c

/-- `HandleOnlineStateChange` of the sync engine. -/
def onlineStateChanged (c : Client q) (onlineState : OnlineState) : Option (Client q) :=
  match c.view with
  | some view => do
    let (view, change) ← view.applyOnlineStateChange onlineState
    if change.limboChanges.isEmpty then
      let c ← { c with view := some view }.onViewSnapshots change.snapshot
      c.handleOnlineStateChange onlineState
    else none
  | none => c.handleOnlineStateChange onlineState

/-- `HandleRejectedListen` for the query's target. -/
def listenRejected (c : Client q) : Client q :=
  match c.view with
  | some _ => { c with view := none }.onError
  | none => c

/-! ## The caller and the executor -/

/-- `GetDocuments` enqueues the listener of the new call. -/
def getDocuments (c : Client q) : Client q :=
  { c with workerQueue := c.workerQueue ++ [.addQueryListener c.next], next := c.next + 1 }

/-- `Resolve`: the call gets its registration. -/
def resolve (c : Client q) (call : ℕ) : Client q :=
  { c with calls := Function.update c.calls call { c.calls call with resolved := true } }

/-- The callback of a call is called. -/
def answer (c : Client q) (call : ℕ) (event : Option (ViewSnapshot q)) : Client q :=
  { c with
    calls := Function.update c.calls call
      { c.calls call with answers := (c.calls call).answers ++ [event] } }

/-- `Remove` of a registration: the call is muted, and its listener is to be removed. -/
def remove (c : Client q) (call : ℕ) : Client q :=
  { c with
    calls := Function.update c.calls call { c.calls call with muted := true }
    workerQueue := c.workerQueue ++ [.removeQueryListener call] }

/-- The executor runs the next event: `OnEvent` of `ListenOnce`, unless the call is muted. -/
def execute (c : Client q) : Client q :=
  match c.executor with
  | [] => c
  | (call, event) :: events =>
    let c' := { c with executor := events }
    if (c.calls call).muted then c'
    else
      match event with
      | none => c'.answer call none
      | some snapshot =>
        -- waits for the registration
        if (c.calls call).resolved then (c'.remove call).answer call (some snapshot) else c

end Client

/-! ## Steps -/

inductive ClientAction where
  | getDocuments
  | resolve (call : ℕ)
  | work (remoteKeys : DocumentKeySet) (mirror : Option SyncState)
  | documentsChanged (changes : DocumentMap) (targetChange : Option TargetChange)
  | onlineStateChanged (onlineState : OnlineState)
  | listenRejected
  | execute

def Client.step {q : Query} (c : Client q) : ClientAction → Option (Client q)
  | .getDocuments => some c.getDocuments
  | .resolve call => some (c.resolve call)
  | .work remoteKeys mirror => c.work remoteKeys mirror
  | .documentsChanged changes targetChange => c.documentsChanged changes targetChange
  | .onlineStateChanged onlineState => c.onlineStateChanged onlineState
  | .listenRejected => some c.listenRejected
  | .execute => some c.execute

end BlindBoard.Firestore
