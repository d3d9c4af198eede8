import BlindBoard.Impl.RandomAccessQueue
import BlindBoard.Impl.View

/-!
# Documents in limbo

A document is in limbo if a view shows it and the service does not. The sync engine counts
the targets that refer to such a document, and looks each one up with a target of
its own; there are `maxConcurrentLimboResolutions` such targets at most, and other documents
wait in a queue. This is the part of `SyncEngine` that does so, with the targets
of the remote store that it listens to. Its steps are the single limbo changes of the
views, the end of a target, a listen that is rejected, and what the service says of a lookup.
A `QueryView` puts one view beside the engine, which goes through the view's limbo
changes one by one before anything else happens on the worker queue.

A step that fails hard in the source is `none` here.
-/

namespace BlindBoard.Firestore

open Lib

/-! ## `ReferenceSet` -/

/-- `DocumentKeyReference::ByKey` -/
def compareReferences : Path × ℕ → Path × ℕ → Ordering :=
  compareLex (fun lhs rhs => compareKeys lhs.1 rhs.1) (compareOn Prod.snd)

instance : Std.TransCmp compareReferences := by
  have := transCmp_comap compareKeys (Prod.fst : Path × ℕ → Path)
  exact inferInstanceAs
    (Std.TransCmp (compareLex (fun lhs rhs : Path × ℕ => compareKeys lhs.1 rhs.1) (compareOn Prod.snd)))

instance : Std.LawfulEqCmp compareReferences where
  eq_of_compare {a b} h := by
    obtain ⟨hk, hi⟩ := Ordering.then_eq_eq.mp (show (compareKeys a.1 b.1).then (compare a.2 b.2) = .eq from h)
    exact Prod.ext (Std.LawfulEqCmp.eq_of_compare hk) (Std.LawfulEqCmp.eq_of_compare hi)

abbrev ReferenceSet := SortedSet compareReferences

namespace ReferenceSet

def addReference (refs : ReferenceSet) (key : Path) (id : ℕ) : ReferenceSet := refs.insert (key, id)

def removeReference (refs : ReferenceSet) (key : Path) (id : ℕ) : ReferenceSet := refs.erase (key, id)

def referencedKeys (refs : ReferenceSet) (id : ℕ) : List Path :=
  (refs.toList.filter fun reference => reference.2 = id).map Prod.fst

def removeReferences (refs : ReferenceSet) (id : ℕ) : ReferenceSet :=
  (refs.referencedKeys id).foldl (fun refs key => refs.removeReference key id) refs

def containsKey (refs : ReferenceSet) (key : Path) : Bool :=
  refs.toList.any fun reference => reference.1 = key

end ReferenceSet

/-! ## The sync engine -/

structure LimboResolution where
  key : Path
  documentReceived : Bool

structure SyncEngine where
  maxConcurrentLimboResolutions : ℕ
  limboDocumentRefs : ReferenceSet
  enqueuedLimboResolutions : RandomAccessQueue Path
  activeLimboTargetsByKey : Store Path ℕ
  activeLimboResolutionsByTarget : Store ℕ LimboResolution
  /-- `next_id_` of the `TargetIdGenerator`. -/
  nextId : ℕ
  /-- The targets for limbo documents that the remote store listens to. -/
  listenTargets : List ℕ

/-- What the service says of the document that a target looks up. -/
inductive LimboEvent where
  | added
  | modified
  | removed
  | other
  deriving DecidableEq

namespace SyncEngine

def new (maxConcurrentLimboResolutions : ℕ) : SyncEngine :=
  ⟨maxConcurrentLimboResolutions, .empty, .new, ∅, ∅, 1, []⟩

/-- `Listen` of the remote store. -/
def listen (s : SyncEngine) (targetId : ℕ) : SyncEngine :=
  if targetId ∈ s.listenTargets then s else { s with listenTargets := s.listenTargets ++ [targetId] }

/-- `StopListening` of the remote store. -/
def stopListening (s : SyncEngine) (targetId : ℕ) : Option SyncEngine :=
  if targetId ∈ s.listenTargets then some { s with listenTargets := s.listenTargets.erase targetId } else none

/-- The body of the loop of `PumpEnqueuedLimboResolutions`; `emplace` leaves a target that a key has. -/
def startLimboResolution (s : SyncEngine) (key : Path) (enqueued : RandomAccessQueue Path) : SyncEngine :=
  { s with
    enqueuedLimboResolutions := enqueued
    activeLimboResolutionsByTarget := s.activeLimboResolutionsByTarget.insert s.nextId ⟨key, false⟩
    activeLimboTargetsByKey :=
      if (s.activeLimboTargetsByKey.lookup key).isSome then s.activeLimboTargetsByKey
      else s.activeLimboTargetsByKey.insert key s.nextId
    nextId := s.nextId + 2 }.listen s.nextId

/-- Some rounds of the loop of `PumpEnqueuedLimboResolutions`. -/
def pump : ℕ → SyncEngine → SyncEngine
  | 0, s => s
  | n + 1, s =>
    if s.activeLimboTargetsByKey.keys.length < s.maxConcurrentLimboResolutions then
      match s.enqueuedLimboResolutions.front, s.enqueuedLimboResolutions.popFront with
      | some key, some enqueued => pump n (s.startLimboResolution key enqueued)
      | _, _ => s
    else s

/-- Each round takes an entry of the queue. -/
def pumpEnqueuedLimboResolutions (s : SyncEngine) : SyncEngine :=
  pump s.enqueuedLimboResolutions.queue.length s

def trackLimboChange (s : SyncEngine) (key : Path) : SyncEngine :=
  if (s.activeLimboTargetsByKey.lookup key).isSome then s
  else
    let pushed := s.enqueuedLimboResolutions.pushBack key
    let s := { s with enqueuedLimboResolutions := pushed.1 }
    if pushed.2 then s.pumpEnqueuedLimboResolutions else s

def removeLimboTarget (s : SyncEngine) (key : Path) : Option SyncEngine :=
  let s := { s with enqueuedLimboResolutions := (s.enqueuedLimboResolutions.remove key).1 }
  match s.activeLimboTargetsByKey.lookup key with
  | none => some s
  | some limboTargetId =>
    (s.stopListening limboTargetId).map fun s =>
      { s with
        activeLimboTargetsByKey := s.activeLimboTargetsByKey.erase key
        activeLimboResolutionsByTarget :=
          s.activeLimboResolutionsByTarget.erase limboTargetId }.pumpEnqueuedLimboResolutions

/-- A key that no target refers to any more is not looked up. -/
def removeUnreferenced (s : SyncEngine) (key : Path) : Option SyncEngine :=
  if s.limboDocumentRefs.containsKey key then some s else s.removeLimboTarget key

/-- `UpdateTrackedLimboDocuments`, of one change. -/
def updateTrackedLimboDocument (s : SyncEngine) (limboChange : LimboDocumentChange) (targetId : ℕ) :
    Option SyncEngine :=
  match limboChange with
  | .added key =>
    some ({ s with limboDocumentRefs := s.limboDocumentRefs.addReference key targetId }.trackLimboChange key)
  | .removed key =>
    { s with limboDocumentRefs := s.limboDocumentRefs.removeReference key targetId }.removeUnreferenced key

/-- `RemoveAndCleanupTarget` -/
def removeAndCleanupTarget (s : SyncEngine) (targetId : ℕ) : Option SyncEngine :=
  (s.limboDocumentRefs.referencedKeys targetId).foldlM removeUnreferenced
    { s with limboDocumentRefs := s.limboDocumentRefs.removeReferences targetId }

/-- `HandleRejectedListen` of a target for a limbo document, which the remote store
listens to no more. -/
def handleRejectedListen (s : SyncEngine) (targetId : ℕ) : SyncEngine :=
  if targetId ∈ s.listenTargets then
    let s := { s with listenTargets := s.listenTargets.erase targetId }
    match s.activeLimboResolutionsByTarget.lookup targetId with
    | some limboResolution =>
      { s with
        activeLimboTargetsByKey := s.activeLimboTargetsByKey.erase limboResolution.key
        activeLimboResolutionsByTarget :=
          s.activeLimboResolutionsByTarget.erase targetId }.pumpEnqueuedLimboResolutions
    | none => s
  else s

/-- `ApplyRemoteEvent`, as it follows the documents of a lookup. -/
def applyRemoteEvent (s : SyncEngine) (targetId : ℕ) (event : LimboEvent) : Option SyncEngine :=
  match s.activeLimboResolutionsByTarget.lookup targetId with
  | none => some s
  | some limboResolution =>
    let received (documentReceived : Bool) : SyncEngine :=
      { s with
        activeLimboResolutionsByTarget :=
          s.activeLimboResolutionsByTarget.insert targetId { limboResolution with documentReceived } }
    match event with
    | .added => some (received true)
    | .modified => if limboResolution.documentReceived then some s else none
    | .removed => if limboResolution.documentReceived then some (received false) else none
    | .other => some s

end SyncEngine

inductive LimboAction where
  | updateTrackedLimboDocument (limboChange : LimboDocumentChange) (targetId : ℕ)
  | removeAndCleanupTarget (targetId : ℕ)
  | handleRejectedListen (targetId : ℕ)
  | applyRemoteEvent (targetId : ℕ) (event : LimboEvent)

def SyncEngine.step (s : SyncEngine) : LimboAction → Option SyncEngine
  | .updateTrackedLimboDocument limboChange targetId => s.updateTrackedLimboDocument limboChange targetId
  | .removeAndCleanupTarget targetId => s.removeAndCleanupTarget targetId
  | .handleRejectedListen targetId => some (s.handleRejectedListen targetId)
  | .applyRemoteEvent targetId event => s.applyRemoteEvent targetId event

/-! ## A view and the engine -/

/-- A `QueryView` of the engine, while its target has one. -/
structure QueryView (q : Query) where
  targetId : ℕ
  view : Option (View q)
  /-- The limbo changes of the view that `UpdateTrackedLimboDocuments` has not gone through. -/
  limboChanges : List LimboDocumentChange
  syncEngine : SyncEngine

inductive QueryViewAction where
  | initializeView (documents : DocumentMap) (remoteKeys : DocumentKeySet)
      (targetChange : Option TargetChange)
  | emitNewSnapshot (documents changes : DocumentMap) (targetChange : Option TargetChange)
  | applyOnlineStateChange (onlineState : OnlineState)
  | updateTrackedLimboDocument
  /-- The query is listened to no more, or its listen is rejected. -/
  | removeAndCleanupTarget
  /-- The engine, on behalf of other targets and of the service. -/
  | syncEngine (action : LimboAction)

/-- The target whose references an action changes. -/
def LimboAction.targetId : LimboAction → Option ℕ
  | .updateTrackedLimboDocument _ targetId | .removeAndCleanupTarget targetId => some targetId
  | .handleRejectedListen _ | .applyRemoteEvent _ _ => none

namespace QueryView

variable {q : Query}

def new (maxConcurrentLimboResolutions targetId : ℕ) : QueryView q :=
  ⟨targetId, none, [], .new maxConcurrentLimboResolutions⟩

/-- The view has changed, and says how its documents in limbo have. -/
def take (s : QueryView q) (change : View q × ViewChange q) : QueryView q :=
  { s with view := some change.1, limboChanges := change.2.limboChanges }

/-- What the worker queue does between two changes of a view. -/
def idleStep (s : QueryView q) : QueryViewAction → Option (QueryView q)
  | .initializeView documents remoteKeys targetChange =>
    if s.view.isSome then none else (View.initializeView q documents remoteKeys targetChange).map s.take
  | .emitNewSnapshot documents changes targetChange =>
    s.view.bind fun view => (view.emitNewSnapshot documents changes targetChange).map s.take
  | .applyOnlineStateChange onlineState =>
    s.view.bind fun view => (view.applyOnlineStateChange onlineState).map s.take
  | .updateTrackedLimboDocument => none
  | .removeAndCleanupTarget =>
    (s.syncEngine.removeAndCleanupTarget s.targetId).map fun syncEngine => { s with view := none, syncEngine }
  | .syncEngine action =>
    if action.targetId = some s.targetId then none
    else (s.syncEngine.step action).map fun syncEngine => { s with syncEngine }

def step (s : QueryView q) (a : QueryViewAction) : Option (QueryView q) :=
  match s.limboChanges, a with
  | [], a => s.idleStep a
  | limboChange :: limboChanges, .updateTrackedLimboDocument =>
    (s.syncEngine.updateTrackedLimboDocument limboChange s.targetId).map fun syncEngine =>
      { s with limboChanges, syncEngine }
  | _, _ => none

end QueryView

end BlindBoard.Firestore
