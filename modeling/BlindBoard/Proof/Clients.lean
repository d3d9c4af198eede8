import BlindBoard.Lib.Run
import BlindBoard.Proof.Listeners

/-!
# The client never fails

What the tasks of the worker queue make of a client that is sound: new documents and
online states are brought to its listeners (`documentsChanged_brought`,
`onlineStateChanged_brought`), a listener is added to those of the query
(`addQueryListener_added`), and the last one to go takes the view along. So a client is sound
in every run, and no assertion of the source fails (`client_never_fails`), provided that
no target change modifies a document that its target does not have.
-/

namespace BlindBoard.Firestore

open Lib

namespace Client

variable {q : Query} {c c' : Client q} {view : View q} {snapshot : ViewSnapshot q}
  {listeners : List (ℕ × QueryListener q)}

theorem documentsChanged_brought (h : c.Listening view listeners snapshot) (changes : DocumentMap)
    (targetChange : Option TargetChange) :
    ∃ d, view.Emitted c.documents changes d ∧
      ((∀ t, targetChange = some t → t.Fits view.syncedDocuments) →
        (c.documentsChanged changes targetChange).isSome = true) ∧
      ∀ c', c.documentsChanged changes targetChange = some c' → ∃ view' change snapshot',
        view.Applied d targetChange view' change ∧ c'.onlineState = c.onlineState ∧
        Notified snapshot' listeners
          { c with documents := c.documents.update changes, view := some view' } c' ∧
        snapshot'.Tells ∧ snapshot'.Of view' := by
  obtain ⟨d, he, hd⟩ := View.emitted changes targetChange h.sound.marked h.sound.follows
  have bring {view' : View q} {change : ViewChange q} (ha : view.Applied d targetChange view' change) :
      ∃ c' snapshot',
        { c with documents := c.documents.update changes, view := some view' }.onViewSnapshots change.snapshot =
          some c' ∧
        Notified snapshot' listeners
          { c with documents := c.documents.update changes, view := some view' } c' ∧
        c'.onlineState = c.onlineState ∧ snapshot'.Tells ∧ snapshot'.Of view' :=
    brought ha hd.noted h.queried h.tells h.of h.tuned
  refine ⟨d, hd, fun ht => ?_, fun c' hc => ?_⟩
  · obtain ⟨view', change, happ, ha⟩ :=
      View.applyChanges_applied hd.needsRefill (View.sortChanges_isSome hd.noted) ht
    obtain ⟨c', _, hc, -⟩ := bring ha
    simp only [documentsChanged, h.viewed, he, happ, bind, Option.bind, hc]
    rfl
  · simp only [documentsChanged, h.viewed, he, bind] at hc
    obtain ⟨⟨view', change⟩, happ, hc⟩ := Option.bind_eq_some_iff.mp hc
    have ha := View.applied_of_some happ
    obtain ⟨_, snapshot', hc', hn, hon, ht, ho⟩ := bring ha
    cases hc.symm.trans hc'
    exact ⟨view', change, snapshot', ha, hon, hn, ht, ho⟩

/-- Going offline, the view is no longer current; nothing else about it changes. -/
theorem applyOnlineStateChange_applied {documents : DocumentMap} (hs : view.Sound documents)
    (onlineState : OnlineState) :
    ∃ view' change, view.applyOnlineStateChange onlineState = some (view', change) ∧
    change.limboChanges = [] ∧
      view'.Sound documents ∧ (change.snapshot = none ∧ view' = view ∨ onlineState = .offline ∧
        { view with current := false }.Applied
          ⟨view.documentSet, ∅, view.mutatedKeys, false⟩ none view' change) := by
  unfold View.applyOnlineStateChange
  by_cases hc : (view.current && decide (onlineState = .offline)) = true
  · rw [if_pos hc]
    have hn : Noted view.documentSet ⟨view.documentSet, ∅, view.mutatedKeys, false⟩ := hs.marked.noted
    have hfits : ∀ t : TargetChange, none = some t →
      t.Fits ({ view with current := false } : View q).syncedDocuments :=
      fun _ h => by cases h
    obtain ⟨view', change, happ, ha⟩ : ∃ view' change,
        { view with current := false }.applyChanges ⟨view.documentSet, ∅, view.mutatedKeys, false⟩ none =
          some (view', change) ∧
        { view with current := false }.Applied
          ⟨view.documentSet, ∅, view.mutatedKeys, false⟩ none view' change :=
      View.applyChanges_applied rfl (View.sortChanges_isSome hn) hfits
    have hcur : view'.current = false := (congrArg View.current (Option.some.inj ha.target)).symm
    exact ⟨view', change, happ, ha.unchanged hcur, ha.sound hn hs.follows,
      .inr ⟨by simpa using (Bool.and_eq_true_iff.mp hc).2, ha⟩⟩
  · rw [if_neg hc]
    exact ⟨view, _, rfl, rfl, hs, .inl ⟨rfl, rfl⟩⟩

theorem onlineStateChanged_brought (h : c.Listening view listeners snapshot) (onlineState : OnlineState) :
    ∃ c' c₁ view' snapshot' listeners', c.onlineStateChanged onlineState = some c' ∧ view'.Sound c.documents ∧
      view'.documentSet = view.documentSet ∧ snapshot'.Tells ∧ snapshot'.Of view' ∧
      Notified snapshot' listeners { c with view := some view' } c₁ ∧ c₁.onlineState = c.onlineState ∧
      (c₁.executor = c.executor ∨ onlineState = .offline) ∧
      c₁.queries = some ⟨listeners', some snapshot'⟩ ∧ Notified snapshot' listeners' c₁ c' ∧
        c'.onlineState = onlineState := by
  obtain ⟨view', change, happ, hlimbo, hs, hcases⟩ := applyOnlineStateChange_applied h.sound onlineState
  have hfirst : ∃ c₁ snapshot', { c with view := some view' }.onViewSnapshots change.snapshot = some c₁ ∧
      Notified snapshot' listeners { c with view := some view' } c₁ ∧ c₁.onlineState = c.onlineState ∧
        snapshot'.Tells ∧
      snapshot'.Of view' ∧ (c₁.executor = c.executor ∨ onlineState = .offline) ∧
        view'.documentSet = view.documentSet := by
    rcases hcases with ⟨hnone, rfl⟩ | ⟨hoff, ha⟩
    · rw [hnone]
      refine ⟨{ c with view := some view' }, snapshot, rfl,
        ⟨rfl, rfl, rfl, rfl, rfl, fun l => (l, none), fun x hx => ?_, ?_, ?_⟩,
        rfl, h.tells, h.of, .inl rfl, rfl⟩
      · exact ⟨by simp, h.tuned x hx, fun _ _ h => by cases h⟩
      · simp [h.queried]
      · simp
    · obtain ⟨c₁, snapshot', hc₁, hn, hon, ht, ho⟩ := brought ha
        (show Noted view.documentSet _ from h.sound.marked.noted)
        (show ({ c with view := some view' } : Client q).queries = _ from h.queried) h.tells
          ⟨h.of.documents, h.of.fromCache, h.of.exact⟩ h.tuned
      exact ⟨c₁, snapshot', hc₁, hn, hon, ht, ho, .inr hoff, ha.documentSet⟩
  obtain ⟨c₁, snapshot', hc₁, hn, hon, ht, ho, hex, hdocs⟩ := hfirst
  obtain ⟨f, hf, hq, -⟩ := hn.handled
  have htuned : ∀ x ∈ listeners.map fun x => (x.1, (f x.2).1), x.2.Tuned c₁.onlineState snapshot' := by
    intro y hy
    obtain ⟨x, hx, rfl⟩ := List.mem_map.mp hy
    exact (hf x hx).tuned
  obtain ⟨c', hc', hn', hon'⟩ := handleOnlineStateChange_notified hq onlineState htuned
  refine ⟨c', c₁, view', snapshot', _, ?_, hs, hdocs, ht, ho, hn, hon, hex, hq, hn', hon'⟩
  simp only [onlineStateChanged, h.viewed, happ, hlimbo, hc₁, hc', bind,
    Option.bind, List.isEmpty_nil, if_true]

/-- A listener has been added to those of the query. -/
structure Added (call : ℕ) (view : View q) (listeners : List (ℕ × QueryListener q))
    (snapshot : ViewSnapshot q)
    (c c' : Client q) : Prop where
  documents : c'.documents = c.documents
  onlineState : c'.onlineState = c.onlineState
  workerQueue : c'.workerQueue = c.workerQueue
  calls : c'.calls = c.calls
  next : c'.next = c.next
  viewed : c'.view = some view
  sound : view.Sound c.documents
  tells : snapshot.Tells
  of : snapshot.Of view
  tuned : ∀ x ∈ listeners, x.2.Tuned c.onlineState snapshot
  handled : ∃ l r, l.raisedInitialEvent = false ∧ QueryListener.Raising c.onlineState snapshot l r ∧
    c'.queries = some ⟨listeners ++ [(call, r.1)], some snapshot⟩ ∧
    c'.executor = c.executor ++ (r.2.map fun snapshot => (call, some snapshot)).toList

/-- A new listener has raised no event, and knows the online state. -/
theorem onOnlineStateChanged_create (onlineState : OnlineState) :
    (QueryListener.create getDocumentsOptions : QueryListener q).onOnlineStateChanged onlineState =
      (⟨getDocumentsOptions, false, onlineState, none⟩, none) := rfl

/-- A first listener is shown the documents of the local store. -/
theorem listen_added (hv : c.view = none) {l : QueryListener q} (ho : l.options = getDocumentsOptions)
    (hon : l.onlineState = c.onlineState) (hr : l.raisedInitialEvent = false)
    (call : ℕ) (remoteKeys : DocumentKeySet)
    (mirror : Option SyncState) :
    ∃ c' view snapshot, { c with queries := some ⟨[(call, l)], none⟩ }.listen remoteKeys mirror = some c' ∧
      Added call view [] snapshot c c' ∧ View.Shows c.documents view.documentSet := by
  have hfits : ∀ t, (mirror.map fun syncState : SyncState =>
    (⟨syncState = .synced, .empty, .empty, .empty⟩ : TargetChange)) = some t →
      t.Fits (View.new remoteKeys : View q).syncedDocuments := by
    intro t ht
    obtain ⟨_, -, rfl⟩ := Option.map_eq_some_iff.mp ht
    intro key hkey
    cases hkey
  obtain ⟨d, hd, hn, hneeds, hf, all, hs, hl⟩ := View.initialized c.documents remoteKeys
    (mirror.map fun syncState : SyncState =>
      (⟨syncState = .synced, .empty, .empty, .empty⟩ : TargetChange)) (q := q)
  obtain ⟨view, change, happ, ha⟩ := View.applyChanges_applied hneeds (View.sortChanges_isSome hn) hfits
  -- a view that has just been made has a snapshot
  have hsnap : change.snapshot.isSome = true := by
    refine ha.snapshot.mpr (.inr ?_)
    rw [ha.syncState]
    show View.nextSyncState view ≠ .none
    unfold View.nextSyncState
    split <;> simp
  obtain ⟨snapshot, hsome⟩ := Option.isSome_iff_exists.mp hsnap
  have hp := ha.pictures snapshot hsome
  have ht : snapshot.Tells := by
    have hne : view.syncState ≠ (View.new remoteKeys : View q).syncState := by
      rw [ha.syncState]
      show View.nextSyncState view ≠ .none
      unfold View.nextSyncState
      split <;> simp
    rw [ViewSnapshot.Tells, hp.syncStateChanged]
    simp [hne]
  obtain ⟨c', hc', hnot, hon'⟩ := onViewSnapshots_notified
    (show ({ c with
      queries := some ⟨[(call, l)], none⟩, view := some view } : Client q).queries = _ from rfl) ht fun x hx => by
      obtain rfl := List.mem_singleton.mp hx
      exact ⟨ho, hon⟩
  obtain ⟨f, hraise, hq, hex⟩ := hnot.handled
  refine ⟨c', view, snapshot, ?_,
    ⟨hnot.documents, hon', hnot.workerQueue, hnot.calls, hnot.next, hnot.view, ?_, ht,
    ⟨hp.documents ▸ rfl, hp.fromCache, ha.exact hn hsome⟩, by simp, l, f l, hr, ?_, hq, ?_⟩, ?_⟩
  · simp only [listen, hv, Option.isSome_none, Bool.false_eq_true, if_false,
      hd, happ, hsome, bind, Option.bind, hc']
  · exact ha.sound hn hf
  · exact hon' ▸ hraise _ (List.mem_singleton_self _)
  · rw [hex, List.filterMap_cons, List.filterMap_nil]
    cases (f l).2 <;> rfl
  · rw [ha.documentSet, View.shows_iff, hl, Limit.map_cut]
    exact congrArg q.limit.cut (View.refilled_data (fun _ h => by cases h) hs)

theorem addQueryListener_added (h : c.Sound) (call : ℕ) (remoteKeys : DocumentKeySet)
    (mirror : Option SyncState) :
    ∃ c' view listeners snapshot, c.addQueryListener call remoteKeys mirror = some c' ∧
      Added call view listeners snapshot c c' ∧
      (c.view = none ∧ c.queries = none ∧ listeners = [] ∧ View.Shows c.documents view.documentSet ∨
        ∃ old, c.queries = some ⟨listeners, old⟩ ∧ c.view = some view) := by
  unfold addQueryListener
  rw [onOnlineStateChanged_create]
  simp only [Option.isSome_none, Bool.false_eq_true, if_false]
  rcases h with ⟨hv, hq⟩ | ⟨view, listeners, snapshot, h⟩
  · obtain ⟨c', view, snapshot, hc', ha, hs⟩ :=
      listen_added hv (l := ⟨getDocumentsOptions, false, c.onlineState, none⟩) rfl rfl rfl
      call remoteKeys mirror
    rw [hq]
    exact ⟨c', view, [], snapshot, hc', ha, .inl ⟨hv, rfl, rfl, hs⟩⟩
  · obtain ⟨r, hr, hraise⟩ := QueryListener.onViewSnapshot_raising
      (l := ⟨getDocumentsOptions, false, c.onlineState, none⟩) rfl h.tells
    rw [h.queried]
    simp only [hr, Option.map_some]
    exact ⟨_, view, listeners, snapshot, rfl,
      ⟨rfl, rfl, rfl, rfl, rfl, h.viewed, h.sound, h.tells, h.of, h.tuned,
      _, r, rfl, hraise, rfl, rfl⟩, .inr ⟨_, rfl, h.viewed⟩⟩

/-- A listener has gone, if it was there; the last one to go takes the view along. -/
theorem removeQueryListener_eq (h : c.Sound) (call : ℕ) :
    ∃ view queries, c.removeQueryListener call = some { c with view, queries } ∧
      (view = c.view ∧ queries = c.queries.map (fun queryInfo =>
          { queryInfo with listeners := queryInfo.listeners.filter fun l => l.1 ≠ call }) ∨
        view = none ∧ queries = none ∧ ∀ queryInfo, c.queries = some queryInfo →
          ∀ x ∈ queryInfo.listeners, x.1 = call) := by
  unfold removeQueryListener
  rcases h with ⟨-, hq⟩ | ⟨view, listeners, snapshot, h⟩
  · rw [hq]
    refine ⟨c.view, none, congrArg some ?_, .inl ⟨rfl, rfl⟩⟩
    cases c
    cases hq
    rfl
  · rw [h.queried]
    dsimp only
    by_cases hnil : (listeners.filter fun l => l.1 ≠ call).isEmpty = true
    · rw [if_pos hnil, if_pos (by rw [h.viewed]; rfl)]
      refine ⟨none, none, rfl, .inr ⟨rfl, rfl, ?_⟩⟩
      rintro _ ⟨⟩ x hx
      have := List.filter_eq_nil_iff.mp (List.isEmpty_iff.mp hnil) x hx
      simpa using this
    · rw [if_neg hnil]
      exact ⟨c.view, _, rfl, .inl ⟨rfl, rfl⟩⟩

/-- Every listener has got an error, and none stays. -/
theorem listenRejected_eq (h : c.Listening view listeners snapshot) : c.listenRejected =
    { c with
      view := none, queries := none, executor := c.executor ++ listeners.map fun l => (l.1, none) } := by
  simp only [listenRejected, h.viewed, onError, h.queried]

/-! ## Sound in every run -/

theorem Added.client_sound {call : ℕ} (h : Added call view listeners snapshot c c') : c'.Sound := by
  obtain ⟨l, r, -, hr, hq, -⟩ := h.handled
  refine .inr ⟨view, _, snapshot, h.viewed, hq, h.documents ▸ h.sound, h.tells, h.of, fun x hx => ?_⟩
  rw [h.onlineState]
  rcases List.mem_append.mp hx with hx | hx
  · exact h.tuned x hx
  · obtain rfl := List.mem_singleton.mp hx
    exact hr.tuned

theorem Sound.remove (h : c.Sound) {view' : Option (View q)}
    {queries : Option (QueryListenersInfo q)} {call : ℕ}
    (hc : view' = c.view ∧ queries = c.queries.map (fun queryInfo =>
        { queryInfo with listeners := queryInfo.listeners.filter fun l => l.1 ≠ call }) ∨
          view' = none ∧ queries = none) :
    { c with view := view', queries }.Sound := by
  rcases hc with ⟨rfl, rfl⟩ | ⟨rfl, rfl⟩
  · rcases h with ⟨hv, hq⟩ | ⟨view, listeners, snapshot, h⟩
    · exact .inl ⟨hv, by rw [hq]; rfl⟩
    · refine .inr ⟨view, _, snapshot, h.viewed, by rw [h.queried]; rfl,
        h.sound, h.tells, h.of, fun x hx => ?_⟩
      exact h.tuned x (List.mem_filter.mp hx).1
  · exact .inl ⟨rfl, rfl⟩

/-- Two notifications in a row keep a client sound, as does one. -/
theorem Notified.sound (h : Notified snapshot listeners c c') (hv : c.view = some view)
    (hs : view.Sound c.documents)
    (ht : snapshot.Tells) (ho : snapshot.Of view) : c'.Sound := by
  obtain ⟨listeners', hl⟩ := h.listening hv hs ht ho
  exact .inr ⟨view, listeners', snapshot, hl⟩

/-- The queues and the calls have no part in it. -/
theorem Sound.congr (h : c.Sound) (hd : c'.documents = c.documents) (hv : c'.view = c.view)
    (hq : c'.queries = c.queries)
    (ho : c'.onlineState = c.onlineState) : c'.Sound := by
  rcases h with ⟨hv', hq'⟩ | ⟨view, listeners, snapshot, h⟩
  · exact .inl ⟨hv.trans hv', hq.trans hq'⟩
  · exact .inr ⟨view, listeners, snapshot, hv.trans h.viewed, hq.trans h.queried,
      hd ▸ h.sound, h.tells, h.of, ho ▸ h.tuned⟩

theorem Sound.execute (h : c.Sound) : c.execute.Sound := by
  unfold Client.execute
  split
  · exact h
  · dsimp only
    split
    · exact h.congr rfl rfl rfl rfl
    · split
      · exact h.congr rfl rfl rfl rfl
      · split
        · exact h.congr rfl rfl rfl rfl
        · exact h

/-- A step keeps a client sound. -/
theorem Sound.step {a : ClientAction} (h : c.Sound) (hc : c.step a = some c') : c'.Sound := by
  cases a with
  | getDocuments | resolve call =>
    cases hc
    exact h.congr rfl rfl rfl rfl
  | execute =>
    cases hc
    exact h.execute
  | listenRejected =>
    cases hc
    show c.listenRejected.Sound
    rcases h with ⟨hv, hq⟩ | ⟨view, listeners, snapshot, h⟩
    · rw [listenRejected, hv]
      exact .inl ⟨hv, hq⟩
    · rw [listenRejected_eq h]
      exact .inl ⟨rfl, rfl⟩
  | work remoteKeys mirror =>
    change c.work remoteKeys mirror = some c' at hc
    unfold work at hc
    split at hc
    · cases hc
      exact h
    next call tasks _ =>
      have hs : ({ c with workerQueue := tasks } : Client q).Sound := h.congr rfl rfl rfl rfl
      obtain ⟨_, _, _, _, hc', ha, -⟩ := addQueryListener_added hs call remoteKeys mirror
      cases hc.symm.trans hc'
      exact ha.client_sound
    next call tasks _ =>
      have hs : ({ c with workerQueue := tasks } : Client q).Sound := h.congr rfl rfl rfl rfl
      obtain ⟨_, _, hc', hcases⟩ := removeQueryListener_eq hs call
      cases hc.symm.trans hc'
      exact hs.remove (hcases.imp_right fun h => ⟨h.1, h.2.1⟩)
  | documentsChanged changes targetChange =>
    change c.documentsChanged changes targetChange = some c' at hc
    rcases h with ⟨hv, hq⟩ | ⟨view, listeners, snapshot, h⟩
    · rw [documentsChanged, hv] at hc
      cases hc
      exact .inl ⟨rfl, hq⟩
    · obtain ⟨d, hd, -, hsome⟩ := documentsChanged_brought h changes targetChange
      obtain ⟨view', _, _, ha, -, hn, ht, ho⟩ := hsome c' hc
      exact hn.sound rfl (ha.sound hd.noted hd.follows) ht ho
  | onlineStateChanged onlineState =>
    change c.onlineStateChanged onlineState = some c' at hc
    rcases h with ⟨hv, hq⟩ | ⟨view, listeners, snapshot, h⟩
    · rw [onlineStateChanged, hv] at hc
      dsimp only at hc
      rw [handleOnlineStateChange, hq] at hc
      cases hc
      exact .inl ⟨hv, rfl⟩
    · obtain ⟨_, c₁, view', _, _, hc', hs, -, ht, ho, hn, -, -, -, hn', -⟩ :=
        onlineStateChanged_brought h onlineState
      cases hc.symm.trans hc'
      exact hn'.sound hn.view (hn.documents ▸ hs) ht ho

theorem sound_new (documents : DocumentMap) : (new documents : Client q).Sound := .inl ⟨rfl, rfl⟩

theorem sound_of_run {documents : DocumentMap} {as : List ClientAction}
    (hr : run Client.step (new documents) as = some c) : c.Sound :=
  (runs_of_run hr).inv (fun _ _ _ h _ hc => Sound.step h hc) (sound_new documents)

/-- The target change of an action has the documents that it modifies. -/
def Fits (c : Client q) : ClientAction → Prop
  | .documentsChanged _ (some t) => ∀ view, c.view = some view → t.Fits view.syncedDocuments
  | _ => True

/-- No assertion of the client fails, in whichever order its queues take their steps. -/
theorem client_never_fails {documents : DocumentMap} {as : List ClientAction} {c : Client q}
    (hr : run Client.step (new documents) as = some c) {a : ClientAction} (ha : c.Fits a) :
    (c.step a).isSome = true := by
  have hs : c.Sound := sound_of_run hr
  cases a with
  | getDocuments | resolve call | execute | listenRejected => rfl
  | work remoteKeys mirror =>
    show (c.work remoteKeys mirror).isSome = true
    unfold work
    split
    · rfl
    next call tasks _ =>
      have hs' : ({ c with workerQueue := tasks } : Client q).Sound := hs.congr rfl rfl rfl rfl
      obtain ⟨_, _, _, _, hc', -⟩ := addQueryListener_added hs' call remoteKeys mirror
      rw [hc']
      rfl
    next call tasks _ =>
      have hs' : ({ c with workerQueue := tasks } : Client q).Sound := hs.congr rfl rfl rfl rfl
      obtain ⟨_, _, hc', -⟩ := removeQueryListener_eq hs' call
      rw [hc']
      rfl
  | documentsChanged changes targetChange =>
    show (c.documentsChanged changes targetChange).isSome = true
    rcases hs with ⟨hv, -⟩ | ⟨view, listeners, snapshot, h⟩
    · rw [documentsChanged, hv]
      rfl
    · obtain ⟨d, -, hsome, -⟩ := documentsChanged_brought h changes targetChange
      refine hsome ?_
      rintro t rfl
      exact ha view h.viewed
  | onlineStateChanged onlineState =>
    show (c.onlineStateChanged onlineState).isSome = true
    rcases hs with ⟨hv, hq⟩ | ⟨view, listeners, snapshot, h⟩
    · rw [onlineStateChanged, hv]
      dsimp only
      rw [handleOnlineStateChange, hq]
      rfl
    · obtain ⟨_, _, _, _, _, hc', -⟩ := onlineStateChanged_brought h onlineState
      rw [hc']
      rfl

/-- The latest two words. -/
def latestWords : Query := ⟨["board"], [⟨.field "writtenTime", .descending⟩], .first 2⟩

def writtenAt (id writtenTime : String) (documentState : DocumentState) : Document :=
  ⟨["board", id], .foundDocument, [("writtenTime", .string writtenTime)], documentState⟩

def catAndDog : DocumentMap :=
  ⟨[writtenAt "cat" "2022-10-01T09:00:00Z" .synced,
    writtenAt "dog" "2022-10-01T10:00:00Z" .synced], by decide⟩

def owlWritten : DocumentMap := ⟨[writtenAt "owl" "2022-10-01T11:00:00Z" .hasLocalMutations], by decide⟩

def dogDeleted : DocumentMap := ⟨[⟨["board", "dog"], .noDocument, [], .synced⟩], by decide⟩

/-- The service has the cat, and nothing else. -/
def catCurrent : TargetChange := ⟨true, SortedSet.empty.insert ["board", "cat"], .empty, .empty⟩

/-- The owl is written and the dog is deleted before the first call is answered; a second one waits. -/
def owlActions : List ClientAction :=
  [.getDocuments, .work .empty none, .documentsChanged owlWritten none, .onlineStateChanged .online,
    .documentsChanged dogDeleted (some catCurrent), .resolve 0, .execute,
    .work .empty none, .getDocuments, .work .empty none]

theorem owlActions_run :
    (run Client.step (new catAndDog : Client latestWords) owlActions).isSome = true := by decide +kernel

def owlListed : Client latestWords :=
  (run Client.step (new catAndDog : Client latestWords) owlActions).get owlActions_run

theorem run_owlActions : run Client.step (new catAndDog : Client latestWords) owlActions = some owlListed :=
  (Option.some_get owlActions_run).symm

theorem client_never_fails_owl :
    (owlListed.step (.documentsChanged catAndDog (some catCurrent))).isSome = true :=
  client_never_fails run_owlActions fun _ _ _ hkey => by cases hkey

/-! ## Views and snapshots in every run -/

/-- A view is synced exactly if it is current and the service has its documents, those
with local mutations excepted; these are the ones of the mutated keys, and what is shown
are documents of the local store, but where the view holds one back. -/
theorem view_synced {documents : DocumentMap} {as : List ClientAction}
    (hr : run Client.step (new documents) as = some c)
    (hv : c.view = some view) :
    (view.syncState = .synced ↔ view.current = true ∧
      ∀ doc ∈ view.documentSet.toList, doc.key ∈ view.syncedDocuments ∨ doc.key ∈ view.mutatedKeys) ∧
    (view.syncState ≠ .synced → view.syncState = .local) ∧
    (∀ doc ∈ view.documentSet.toList, (doc.key ∈ view.mutatedKeys ↔ doc.hasLocalMutations = true) ∧
      ∃ stored, c.documents.find doc.key = some stored ∧ q.Matches stored = true ∧
        (doc.value = stored.value ∨ View.shouldWaitForSyncedDocument stored doc = true)) := by
  rcases sound_of_run hr with ⟨hnone, -⟩ | ⟨_, _, _, h⟩
  · cases hnone.symm.trans hv
  · cases h.viewed.symm.trans hv
    have hmarked {doc : Document} (hd : doc ∈ view.documentSet.toList) : doc.key ∈ view.mutatedKeys ↔
      doc.hasLocalMutations = true :=
      h.sound.marked_iff hd
    refine ⟨?_, ?_, fun doc hd => ⟨hmarked hd, h.sound.follows doc.key doc (DocumentSet.mem_toList.mp hd)⟩⟩
    · rw [h.sound.syncState_iff]
      exact and_congr_right fun _ => forall₂_congr fun doc hd => or_congr_right (hmarked hd).symm
    · intro hs
      by_contra hl
      exact hs (h.sound.synced_of_ne hl)

theorem owlListed_view : owlListed.view.isSome = true := by decide +kernel

theorem view_synced_owl :
    ∃ view, owlListed.view = some view ∧ (view.syncState = .synced ↔ view.current = true ∧
    ∀ doc ∈ view.documentSet.toList, doc.key ∈ view.syncedDocuments ∨ doc.key ∈ view.mutatedKeys) := by
  obtain ⟨view, hv⟩ := Option.isSome_iff_exists.mp owlListed_view
  exact ⟨view, hv, (view_synced run_owlActions hv).1⟩

end Client

end BlindBoard.Firestore
