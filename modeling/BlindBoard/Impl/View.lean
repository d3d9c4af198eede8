import BlindBoard.Lib.Store
import BlindBoard.Impl.DocumentSet

/-!
# Views of the Firestore client

A `View` keeps the documents that a query shows: `computeDocumentChanges` finds what
documents that have changed make of them, and `applyChanges` takes that over and
says it in a snapshot. Where a limit is full and a document leaves it, the changes
need a refill: a second pass over all documents that match. Keys are in limbo if
the view shows their documents and the service does not.

A step that fails hard in the source is `none` here.
-/

namespace BlindBoard.Firestore

open Lib

/-- `DocumentKeySet` -/
abbrev DocumentKeySet := SortedSet compareKeys

/-! ## Changes -/

/-- `DocumentViewChange::Type` -/
inductive ChangeType where
  | removed
  | added
  | modified
  | metadata
  deriving DecidableEq

structure DocumentViewChange where
  document : Document
  type : ChangeType
  deriving DecidableEq

abbrev DocumentViewChangeSet := Store Path DocumentViewChange

/-- `AddChange`: the change is merged with an earlier one of the same key. -/
def addChange (changes : DocumentViewChangeSet) (change : DocumentViewChange) :
    Option DocumentViewChangeSet :=
  let key := change.document.key
  match changes.lookup key with
  | none => some (changes.insert key change)
  | some old =>
    if change.type ≠ .added ∧ old.type = .metadata then some (changes.insert key change)
    else if change.type = .metadata ∧ old.type ≠ .removed then
      some (changes.insert key ⟨change.document, old.type⟩)
    else if change.type = .modified ∧ old.type = .modified then
      some (changes.insert key ⟨change.document, .modified⟩)
    else if change.type = .modified ∧ old.type = .added then
      some (changes.insert key ⟨change.document, .added⟩)
    else if change.type = .removed ∧ old.type = .added then some (changes.erase key)
    else if change.type = .removed ∧ old.type = .modified then
      some (changes.insert key ⟨old.document, .removed⟩)
    else if change.type = .added ∧ old.type = .removed then
      some (changes.insert key ⟨change.document, .modified⟩)
    else none

/-- `ViewDocumentChanges` -/
structure ViewDocumentChanges (q : Query) where
  documentSet : DocumentSet q
  changeSet : DocumentViewChangeSet
  mutatedKeys : DocumentKeySet
  needsRefill : Bool

inductive SyncState where
  | none
  | «local»
  | synced
  deriving DecidableEq

inductive OnlineState where
  | unknown
  | online
  | offline
  deriving DecidableEq

/-- `LimboDocumentChange` -/
inductive LimboDocumentChange where
  | added (key : Path)
  | removed (key : Path)
  deriving DecidableEq

structure TargetChange where
  current : Bool
  addedDocuments : DocumentKeySet
  modifiedDocuments : DocumentKeySet
  removedDocuments : DocumentKeySet

structure ViewSnapshot (q : Query) where
  documents : DocumentSet q
  oldDocuments : DocumentSet q
  documentChanges : List DocumentViewChange
  mutatedKeys : DocumentKeySet
  fromCache : Bool
  syncStateChanged : Bool

structure ViewChange (q : Query) where
  snapshot : Option (ViewSnapshot q)
  limboChanges : List LimboDocumentChange

structure View (q : Query) where
  documentSet : DocumentSet q
  /-- The keys of the target as the service has it. -/
  syncedDocuments : DocumentKeySet
  limboDocuments : DocumentKeySet
  mutatedKeys : DocumentKeySet
  syncState : SyncState
  current : Bool

namespace View

variable {q : Query}

/-- The constructor. -/
def new (remoteDocuments : DocumentKeySet) : View q := ⟨.empty, remoteDocuments, .empty, .empty, .none, false⟩

/-! ## `ComputeDocumentChanges` -/

def shouldWaitForSyncedDocument (newDoc oldDoc : Document) : Bool :=
  oldDoc.hasLocalMutations && newDoc.hasCommittedMutations && !newDoc.hasLocalMutations

/-- The change that a document makes, where it makes one. -/
def changeOf (view : View q) (oldDoc newDoc : Option Document) : Option DocumentViewChange :=
  match oldDoc, newDoc with
  | some old, some new =>
    let oldDocHadPendingMutations : Bool := new.key ∈ view.mutatedKeys
    let newDocHasPendingMutations : Bool :=
      new.hasLocalMutations || (new.key ∈ view.mutatedKeys && new.hasCommittedMutations)
    if old.value ≠ new.value then
      if shouldWaitForSyncedDocument new old then none else some ⟨new, .modified⟩
    else if oldDocHadPendingMutations ≠ newDocHasPendingMutations then some ⟨new, .metadata⟩
    else none
  | none, some new => some ⟨new, .added⟩
  | some old, none => some ⟨old, .removed⟩
  | none, none => none

/-- Whether the document is on that side of the edge of a limit, where there is an edge. -/
def outside (q : Query) (side : Ordering) (doc : Document) : Option Document → Option Bool
  | some edge => (q.comparator doc edge).map fun comp => comp = side
  | none => some false

/-- Whether a change leaves room in a full limit; the documents are those at its edge. -/
def leavesLimit (q : Query) (lastDocInLimit firstDocInLimit : Option Document)
    (change : DocumentViewChange) : Option Bool :=
  match change.type with
  | .modified => do
    let outsideLimit ← outside q .gt change.document lastDocInLimit
    let outsideLimitToLast ← outside q .lt change.document firstDocInLimit
    some (outsideLimit || outsideLimitToLast)
  | .removed => some (lastDocInLimit.isSome || firstDocInLimit.isSome)
  | _ => some false

/-- The document, if the query matches it. -/
def matching (q : Query) (doc : Document) : Option Document := if q.Matches doc then some doc else none

/-- The body of the loop over the documents that have changed. -/
def processDocument (view : View q) (oldDocumentSet : DocumentSet q)
    (lastDocInLimit firstDocInLimit : Option Document)
    (c : ViewDocumentChanges q) (doc : Document) : Option (ViewDocumentChanges q) :=
  match view.changeOf (oldDocumentSet.getDocument doc.key) (matching q doc) with
  | none => some c
  | some change => do
    let changeSet ← addChange c.changeSet change
    let leaves ← leavesLimit q lastDocInLimit firstDocInLimit change
    let needsRefill := c.needsRefill || leaves
    match matching q doc with
    | some new =>
      let documentSet ← c.documentSet.insert new
      let mutatedKeys :=
        if new.hasLocalMutations then c.mutatedKeys.insert doc.key else c.mutatedKeys.erase doc.key
      some { documentSet, changeSet, mutatedKeys, needsRefill }
    | none =>
      let documentSet ← c.documentSet.erase doc.key
      some { documentSet, changeSet, mutatedKeys := c.mutatedKeys.erase doc.key, needsRefill }

/-- The document at the edge of a full limit. -/
def lastDocInLimit (documents : DocumentSet q) : Option Document :=
  match q.limit with
  | .first limit => if documents.size = limit then documents.getLastDocument else none
  | _ => none

def firstDocInLimit (documents : DocumentSet q) : Option Document :=
  match q.limit with
  | .last limit => if documents.size = limit then documents.getFirstDocument else none
  | _ => none

/-- The document that a limit drops first. -/
def outermost (documents : DocumentSet q) : Option Document :=
  match q.limit with
  | .first _ => documents.getLastDocument
  | _ => documents.getFirstDocument

/-- Drops as many documents out of the limit. -/
def dropDocuments : ℕ → ViewDocumentChanges q → Option (ViewDocumentChanges q)
  | 0, c => some c
  | n + 1, c =>
    match outermost c.documentSet with
    | some oldDoc => do
      let documentSet ← c.documentSet.erase oldDoc.key
      let changeSet ← addChange c.changeSet ⟨oldDoc, .removed⟩
      dropDocuments n
        { documentSet, changeSet
          mutatedKeys := c.mutatedKeys.erase oldDoc.key
          needsRefill := c.needsRefill }
    | none => none

/-- Drops what is outside the limit. -/
def applyLimit (c : ViewDocumentChanges q) : Option (ViewDocumentChanges q) :=
  match q.limit with
  | .none => some c
  | .first limit | .last limit => dropDocuments (c.documentSet.size - limit) c

/-- Where the changes of a pass start. -/
def startChanges (view : View q) (previousChanges : Option (ViewDocumentChanges q)) : ViewDocumentChanges q :=
  match previousChanges with
  | some previous => { previous with needsRefill := false }
  | none => ⟨view.documentSet, ∅, view.mutatedKeys, false⟩

def computeDocumentChanges (view : View q) (docChanges : DocumentMap)
    (previousChanges : Option (ViewDocumentChanges q)) :
    Option (ViewDocumentChanges q) := do
  let start := view.startChanges previousChanges
  let oldDocumentSet := start.documentSet
  let c ← docChanges.documents.foldlM
    (view.processDocument oldDocumentSet (lastDocInLimit oldDocumentSet)
      (firstDocInLimit oldDocumentSet)) start
  let c ← applyLimit c
  -- refilled with documents that need a refill themselves
  if c.needsRefill && previousChanges.isSome then none else some c

/-! ## `ApplyChanges` -/

def applyTargetChange (view : View q) : Option TargetChange → Option (View q)
  | none => some view
  | some targetChange =>
    let syncedDocuments := targetChange.addedDocuments.toList.foldl SortedSet.insert view.syncedDocuments
    if targetChange.modifiedDocuments.toList.all fun key => key ∈ syncedDocuments then
      some { view with
        syncedDocuments := targetChange.removedDocuments.toList.foldl SortedSet.erase syncedDocuments
        current := targetChange.current }
    else none

def shouldBeInLimbo (view : View q) (key : Path) : Bool :=
  if key ∈ view.syncedDocuments then false
  else
    match view.documentSet.getDocument key with
    | none => false
    | some doc => !doc.hasLocalMutations

def updateLimboDocuments (view : View q) : View q × List LimboDocumentChange :=
  if view.current then
    let oldLimboDocuments := view.limboDocuments
    let limboDocuments : DocumentKeySet := view.documentSet.toList.foldl
      (fun keys doc => if view.shouldBeInLimbo doc.key then keys.insert doc.key else keys) .empty
    ({ view with limboDocuments },
      (oldLimboDocuments.toList.filter fun key => key ∉ limboDocuments).map .removed ++
        (limboDocuments.toList.filter fun key => key ∉ oldLimboDocuments).map .added)
  else (view, [])

/-- `GetDocumentViewChangeTypePosition` -/
def changePosition : ChangeType → ℕ
  | .removed => 0
  | .added => 1
  | .modified => 2
  | .metadata => 2

/-- A change comes before another in a snapshot, by its type and then in the order of the query. -/
def compareChanges (q : Query) : DocumentViewChange → DocumentViewChange → Ordering :=
  compareLex (compareOn fun change => changePosition change.type) fun lhs rhs =>
    q.totalOrder lhs.document rhs.document

/-- The changes in the order in which a snapshot has them. -/
def sortedChanges (q : Query) (changes : DocumentViewChangeSet) : List DocumentViewChange :=
  (changes.entries.map Sigma.snd).insertionSort fun lhs rhs => (compareChanges q lhs rhs).isLE = true

/-- The sort fails hard where the documents of two changes are compared that cannot be. -/
def sortChanges (q : Query) (changes : DocumentViewChangeSet) : Option (List DocumentViewChange) :=
  let comparable (lhs rhs : DocumentViewChange) : Prop :=
    changePosition lhs.type = changePosition rhs.type → (q.comparator lhs.document rhs.document).isSome = true
  if (changes.entries.map Sigma.snd).Pairwise comparable then some (sortedChanges q changes) else none

/-- Synced: no document is in limbo, and the view is current. -/
def nextSyncState (view : View q) : SyncState :=
  if view.limboDocuments.toList.isEmpty && view.current then .synced else .local

def applyChanges (view : View q) (docChanges : ViewDocumentChanges q) (targetChange : Option TargetChange) :
    Option (View q × ViewChange q) :=
  if docChanges.needsRefill then none
  else do
    let changes ← sortChanges q docChanges.changeSet
    let taken : View q :=
      { view with documentSet := docChanges.documentSet, mutatedKeys := docChanges.mutatedKeys }
    let taken ← taken.applyTargetChange targetChange
    let updated := taken.updateLimboDocuments
    let newSyncState := updated.1.nextSyncState
    let syncStateChanged : Bool := newSyncState ≠ view.syncState
    let snapshot : ViewSnapshot q :=
      { documents := docChanges.documentSet
        oldDocuments := view.documentSet
        documentChanges := changes
        mutatedKeys := docChanges.mutatedKeys
        fromCache := newSyncState = .local
        syncStateChanged }
    some ({ updated.1 with syncState := newSyncState },
      ⟨if changes.isEmpty && !syncStateChanged then none else some snapshot, updated.2⟩)

def applyOnlineStateChange (view : View q) (onlineState : OnlineState) : Option (View q × ViewChange q) :=
  if view.current && onlineState = .offline then
    { view with current := false }.applyChanges ⟨view.documentSet, ∅, view.mutatedKeys, false⟩ none
  else some (view, ⟨none, []⟩)

/-! ## A query that is listened to -/

/-- `EmitNewSnapshotsAndNotifyLocalStore` for one view: `documents` are those that the
local store has now, of which `changes` have changed. -/
def emitNewSnapshot (view : View q) (documents changes : DocumentMap) (targetChange : Option TargetChange) :
    Option (View q × ViewChange q) := do
  let c ← view.computeDocumentChanges changes none
  let c ← if c.needsRefill then view.computeDocumentChanges (documents.filter q.Matches) (some c) else some c
  view.applyChanges c targetChange

/-- `InitializeViewAndComputeSnapshot` -/
def initializeView (q : Query) (documents : DocumentMap) (remoteKeys : DocumentKeySet)
    (targetChange : Option TargetChange) :
    Option (View q × ViewChange q) := do
  let view : View q := new remoteKeys
  let c ← view.computeDocumentChanges (documents.filter q.Matches) none
  view.applyChanges c targetChange

end View

end BlindBoard.Firestore
