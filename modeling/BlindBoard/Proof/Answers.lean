import BlindBoard.Proof.Calls

/-!
# The answers to a call

A call is answered once at most (`answered_once`), and no call is forgotten: when the queues are
empty, one without an answer waits for the service, and the client is not known to be
offline (`unanswered_waits`). The answer has the results of the query on the documents that the
local store had at one moment between the call and its answer (`answer_results`),
provided that the view holds no document back; at that moment the client was offline, or the
view was synced and showed no document but those that the service has and those with
local mutations.
-/

namespace BlindBoard.Firestore

open Lib

variable {q : Query}

/-- The snapshot is what a call is to be answered with now. -/
structure ViewSnapshot.Answers (s : ViewSnapshot q) (c : Client q) : Prop where
  results : s.documents.toList.map Document.data = (q.results c.documents).map Document.data
  offline : s.fromCache = true → c.onlineState = .offline
  synced : s.fromCache = false → ∃ view, c.view = some view ∧ view.current = true ∧
    ∀ doc ∈ s.documents.toList, doc.key ∈ view.syncedDocuments ∨ doc.hasLocalMutations = true

namespace Client

variable {c c' : Client q} {view : View q} {snapshot : ViewSnapshot q} {ls : List (ℕ × QueryListener q)}

/-- The documents of the view are the results of the query. -/
def Showing (c : Client q) : Prop := ∀ view, c.view = some view → View.Shows c.documents view.documentSet

/-- The view holds none of the documents back that the action changes. -/
def Unheld (c : Client q) : ClientAction → Prop
  | .documentsChanged changes _ => (c.view.any fun view => view.holdsBack changes) = false
  | _ => True

instance (c : Client q) : DecidablePred c.Unheld := fun a =>
  match a with
  | .documentsChanged changes _ =>
    inferInstanceAs (Decidable ((c.view.any fun view => view.holdsBack changes) = false))
  | .getDocuments | .resolve _ | .work _ _ | .onlineStateChanged _ | .listenRejected | .execute =>
    isTrue trivial

/-- A first event of a call that is a snapshot was there, or is what the call is to be
answered with now. -/
def Posting (c c' : Client q) : Prop :=
  ∀ call s, (c'.events call).head? = some (some s) → (c.events call).head? = some (some s) ∨
    call < c'.next ∧ (c'.calls call).answers = [] ∧ s.Answers c'

/-! ## The first event of a call -/

theorem head_append {α : Type} {l l' : List α} {a : α} (h : (l ++ l').head? = some a) :
    l.head? = some a ∨ l = [] ∧ l'.head? = some a := by
  cases l with
  | nil => exact .inr ⟨rfl, h⟩
  | cons b l => exact .inl h

theorem answers_nil {call : ℕ} (h : c.events call = []) : (c.calls call).answers = [] :=
  (List.append_eq_nil_iff.mp h).1

/-- The first event that is brought to a call is the initial event of its listener. -/
theorem Orderly.first (h : c.Orderly) (hl : c.listeners = ls) (hn : Notified snapshot ls c c')
    {call : ℕ} {s : ViewSnapshot q}
    (hs : (c'.events call).head? = some (some s)) : (c.events call).head? = some (some s) ∨
      call < c'.next ∧ (c'.calls call).answers = [] ∧ s = QueryListener.initialEvent snapshot ∧
        (snapshot.fromCache = true → c'.onlineState = .offline) := by
  obtain ⟨f, hf, -, he⟩ := hn.handled
  subst hl
  have he' : c'.executor = c.executor ++ c.listeners.filterMap fun x =>
    ((fun l => (f l).2.map some) x.2).map fun e => (x.1, e) := by
    simp only [he, Option.map_map]
    rfl
  have hnd : (c.listeners.map Prod.fst).Nodup := (List.nodup_append.mp h.ids).1
  rw [events_append hn.calls he'] at hs
  refine (head_append hs).imp_right ?_
  rintro ⟨hnil, hs⟩
  by_cases hcall : call ∈ c.listeners.map Prod.fst
  · obtain ⟨x, hx, rfl⟩ := List.mem_map.mp hcall
    rw [posted_eq (f := fun l => (f l).2.map some) hnd hx] at hs
    have hraised : x.2.raisedInitialEvent = false :=
      Bool.eq_false_iff.mpr fun hr => (h.raised x hx).mp hr hnil
    cases hfx : (f x.2).2 with
    | none => simp [hfx] at hs
    | some event =>
      obtain rfl : event = s := by simpa [hfx] using hs
      obtain ⟨hinit, hoff⟩ := (hf x hx).first hraised event hfx
      refine ⟨hn.next ▸ h.known x.1 (List.mem_append_left _ hcall), ?_, hinit, hoff⟩
      rw [hn.calls]
      exact answers_nil hnil
  · rw [posted_none (f := fun l => (f l).2.map some) hcall] at hs
    cases hs

/-- The first event of a listener that is added is its initial event. -/
theorem Orderly.first_added (h : c.Orderly) {call : ℕ} {tasks : List WorkerTask}
    (hw : c.workerQueue = .addQueryListener call :: tasks)
    (ha : Added call view ls snapshot { c with workerQueue := tasks } c') {i : ℕ} {s : ViewSnapshot q}
    (hs : (c'.events i).head? = some (some s)) : (c.events i).head? = some (some s) ∨
      i < c'.next ∧ (c'.calls i).answers = [] ∧ s = QueryListener.initialEvent snapshot ∧
        (snapshot.fromCache = true → c'.onlineState = .offline) := by
  obtain ⟨l, r, hraised, hr, -, he⟩ := ha.handled
  rw [events_append ha.calls he] at hs
  refine (head_append hs).imp_right ?_
  rintro ⟨hnil, hs⟩
  cases hr2 : r.2 with
  | none => simp [hr2] at hs
  | some event =>
    by_cases hi : call = i
    · obtain rfl : event = s := by simpa [hr2, hi] using hs
      subst hi
      obtain ⟨hinit, hoff⟩ := hr.first hraised event hr2
      refine ⟨ha.next ▸ h.known call (List.mem_append_right _ ?_), ?_, hinit, ha.onlineState ▸ hoff⟩
      · rw [Client.toAdd, hw]
        exact List.mem_cons_self
      · rw [ha.calls]
        exact answers_nil hnil
    · simp [hr2, hi] at hs

/-- The initial event of a view that shows the results. -/
theorem answers_initialEvent (hv : c.view = some view) (hs : view.Sound c.documents)
    (hshow : View.Shows c.documents view.documentSet)
    (ho : snapshot.Of view) (hoff : snapshot.fromCache = true → c.onlineState = .offline) :
    (QueryListener.initialEvent snapshot).Answers c where
  results := by
    show snapshot.documents.toList.map Document.data = _
    rw [ho.documents]
    exact hshow
  offline := hoff
  synced hf := by
    have hf' : snapshot.fromCache = false := hf
    rw [ho.fromCache, decide_eq_false_iff_not] at hf'
    obtain ⟨hcur, hall⟩ := hs.syncState_iff.mp (hs.synced_of_ne hf')
    refine ⟨view, hv, hcur, fun doc hd => ?_⟩
    have hd' : doc ∈ snapshot.documents.toList := hd
    exact hall doc (ho.documents ▸ hd')

/-! ## What a step posts -/

theorem Posting.of_head (h : ∀ call s, (c'.events call).head? = some (some s) →
    (c.events call).head? = some (some s)) :
    Posting c c' := fun call s hs => .inl (h call s hs)

/-- A notification posts the answer of the view. -/
theorem Notified.posting (hn : Notified snapshot ls c c') (h : c.Orderly)
    (hl : c.listeners = ls) (hv : c.view = some view)
    (hs : view.Sound c.documents) (hshow : View.Shows c.documents view.documentSet)
    (ho : snapshot.Of view) : Posting c c' := by
  intro call s hs'
  refine (h.first hl hn hs').imp_right ?_
  rintro ⟨hcall, hans, rfl, hoff⟩
  exact ⟨hcall, hans, answers_initialEvent (hn.view.trans hv) (hn.documents ▸ hs)
    (hn.documents ▸ hshow) ho hoff⟩

theorem posting_work (h : c.Orderly) (hs : c.Sound) (hshow : c.Showing)
    {remoteKeys : DocumentKeySet} {mirror : Option SyncState}
    (hc : c.work remoteKeys mirror = some c') : Posting c c' ∧ c'.Showing := by
  unfold work at hc
  split at hc
  · cases hc
    exact ⟨.of_head fun _ _ hs => hs, hshow⟩
  next call tasks hw =>
    have hs' : ({ c with workerQueue := tasks } : Client q).Sound := hs.congr rfl rfl rfl rfl
    obtain ⟨_, view, ls, snapshot, hc', ha, hcases⟩ := addQueryListener_added hs' call remoteKeys mirror
    cases hc.symm.trans hc'
    have hshow' : View.Shows c'.documents view.documentSet := by
      rw [ha.documents]
      rcases hcases with ⟨-, -, -, hv⟩ | ⟨_, -, hv⟩
      · exact hv
      · exact hshow view hv
    refine ⟨fun i s hi => (h.first_added hw ha hi).imp_right ?_, fun view' hv => ?_⟩
    · rintro ⟨hcall, hans, rfl, hoff⟩
      exact ⟨hcall, hans, answers_initialEvent ha.viewed (ha.documents ▸ ha.sound) hshow' ha.of hoff⟩
    · cases hv.symm.trans ha.viewed
      exact hshow'
  next call tasks hw =>
    have hs' : ({ c with workerQueue := tasks } : Client q).Sound := hs.congr rfl rfl rfl rfl
    obtain ⟨view, queries, hc', hcases⟩ := removeQueryListener_eq hs' call
    cases hc.symm.trans hc'
    refine ⟨.of_head fun _ _ hs => hs, fun view' hv => ?_⟩
    rcases hcases with ⟨rfl, -⟩ | ⟨rfl, -⟩
    · exact hshow view' hv
    · cases hv

theorem posting_onlineStateChanged (h : c.Orderly) (hs : c.Sound) (hshow : c.Showing)
    {onlineState : OnlineState}
    (hc : c.onlineStateChanged onlineState = some c') : Posting c c' ∧ c'.Showing := by
  rcases hs with ⟨hv, hq⟩ | ⟨view, ls, snapshot, hl⟩
  · rw [onlineStateChanged, hv] at hc
    dsimp only at hc
    rw [handleOnlineStateChange, hq] at hc
    cases hc
    exact ⟨.of_head fun _ _ hs => hs, hshow⟩
  · obtain ⟨_, c₁, view', snapshot', ls', hc', hs, hdocs, -, ho, hn, hon, hex, hq₁, hn', hon'⟩ :=
      onlineStateChanged_brought hl onlineState
    cases hc.symm.trans hc'
    have h₀ : ({ c with view := some view' } : Client q).Orderly := h.congr rfl rfl rfl rfl rfl
    have h₁ : c₁.Orderly := h₀.notified (listeners_some hl.queried) hn
    have hshow₁ : View.Shows c₁.documents view'.documentSet := by
      rw [hn.documents, hdocs]
      exact hshow view hl.viewed
    refine ⟨fun call s hs' => ?_, fun view₂ hv => ?_⟩
    · rcases hn'.posting h₁ (listeners_some hq₁) hn.view (hn.documents ▸ hs) hshow₁ ho call s hs'
        with hs₁ | hs₁
      · -- the view has a new snapshot only if the client is offline now
        rcases h₀.first (listeners_some hl.queried) hn hs₁ with hs₀ | ⟨hcall, hans, hinit, hoff⟩
        · exact .inl hs₀
        · rcases hex with hex | rfl
          · have he : c₁.events call = c.events call := by
              rw [events, events, waiting, waiting, hn.calls, hex]
            exact .inl (he ▸ hs₁)
          · refine .inr ⟨hn'.next ▸ hcall, hn'.calls ▸ hans, hinit ▸ ?_⟩
            refine answers_initialEvent (hn'.view.trans hn.view) ?_ (hn'.documents ▸ hshow₁) ho fun _ => hon'
            rw [hn'.documents, hn.documents]
            exact hs
      · exact .inr hs₁
    · cases hv.symm.trans (hn'.view.trans hn.view)
      exact hn'.documents ▸ hshow₁

/-- What a step posts are answers, and the view goes on showing the results. -/
theorem Orderly.posting {a : ClientAction} (h : c.Orderly) (hs : c.Sound)
    (hshow : c.Showing) (ha : c.Unheld a)
    (hc : c.step a = some c') : Posting c c' ∧ c'.Showing := by
  cases a with
  | getDocuments =>
    cases hc
    exact ⟨.of_head fun _ _ hs => hs, hshow⟩
  | resolve call =>
    cases hc
    exact ⟨.of_head fun i s hi => (h.resolved call).head i ▸ hi, hshow⟩
  | execute =>
    cases hc
    refine ⟨.of_head fun i s hi => h.executed.head i ▸ hi, fun view hv => ?_⟩
    have hdocs : c.execute.documents = c.documents := h.executed.documents
    have hview : c.execute.view = c.view := h.executed.view
    rw [hdocs]
    exact hshow view (hview ▸ hv)
  | work remoteKeys mirror => exact posting_work h hs hshow hc
  | onlineStateChanged onlineState => exact posting_onlineStateChanged h hs hshow hc
  | listenRejected =>
    cases hc
    show Posting c c.listenRejected ∧ c.listenRejected.Showing
    rcases hs with ⟨hv, -⟩ | ⟨view, ls, snapshot, hl⟩
    · rw [listenRejected, hv]
      exact ⟨.of_head fun _ _ hs => hs, hshow⟩
    · have hcalls : c.listenRejected.calls = c.calls := by rw [listenRejected_eq hl]
      have hex : c.listenRejected.executor = c.executor ++ ls.map fun l => (l.1, none) := by
        rw [listenRejected_eq hl]
      refine ⟨.of_head fun call s hs' => ?_, fun view' hv => ?_⟩
      · rw [events_append hcalls hex] at hs'
        refine (head_append hs').resolve_right ?_
        rintro ⟨-, hs'⟩
        -- what is posted are errors
        obtain ⟨e, he, hes⟩ := List.mem_map.mp (List.mem_of_mem_head? hs')
        obtain ⟨l, -, rfl⟩ := List.mem_map.mp (List.mem_filter.mp he).1
        cases hes
      · rw [listenRejected_eq hl] at hv
        cases hv
  | documentsChanged changes targetChange =>
    change c.documentsChanged changes targetChange = some c' at hc
    rcases hs with ⟨hv, hq⟩ | ⟨view, ls, snapshot, hl⟩
    · rw [documentsChanged, hv] at hc
      cases hc
      exact ⟨.of_head fun _ _ hs => hs, fun view hv' => by cases hv'⟩
    · obtain ⟨d, hd, -, hsome⟩ := documentsChanged_brought hl changes targetChange
      obtain ⟨view', _, _, happ, -, hn, -, ho⟩ := hsome c' hc
      have hshow' : View.Shows (c.documents.update changes) view'.documentSet := by
        rw [happ.documentSet]
        refine hd.shows (hshow view hl.viewed) ?_
        rw [Unheld, hl.viewed] at ha
        exact ha
      have h' : ({ c with documents := c.documents.update changes, view := some view' } : Client q).Orderly :=
        h.congr rfl rfl rfl rfl rfl
      refine ⟨hn.posting h' (listeners_some hl.queried) rfl (happ.sound hd.noted hd.follows) hshow' ho,
        fun view₂ hv => ?_⟩
      cases hv.symm.trans hn.view
      exact hn.documents ▸ hshow'

/-! ## Answers in every run -/

/-- The callback of a call is called at most once, and only if there is a call. -/
theorem answered_once {documents : DocumentMap} {as : List ClientAction}
    (hr : run Client.step (new documents) as = some c)
    (call : ℕ) : (c.calls call).answers.length ≤ 1 ∧ ((c.calls call).answers ≠ [] → call < c.next) := by
  obtain ⟨-, h⟩ := orderly_of_run hr
  refine ⟨?_, fun hne => ?_⟩
  · cases hm : (c.calls call).muted with
    | true =>
      obtain ⟨s, hs⟩ := h.muted call hm
      rw [hs]
      exact le_rfl
    | false =>
      rcases h.unmuted call hm with hs | hs
      · simp [hs]
      · simp [hs]
  · by_contra hlt
    exact hne (answers_nil (h.unknown call (not_lt.mp hlt)))

theorem answered_once_owl :
    (owlListed.calls 0).answers.length ≤ 1 ∧ ((owlListed.calls 0).answers ≠ [] → 0 < owlListed.next) :=
  answered_once run_owlActions 0

/-- When its queues are empty, a client has answered every call once, or is not known to
be offline and has a view that waits for the service. -/
theorem unanswered_waits {documents : DocumentMap} {as : List ClientAction}
    (hr : run Client.step (new documents) as = some c)
    (hw : c.workerQueue = []) (he : c.executor = []) {call : ℕ} (hcall : call < c.next) :
    (c.calls call).answers.length = 1 ∨
      c.onlineState ≠ .offline ∧ ∃ view, c.view = some view ∧ view.syncState = .local := by
  obtain ⟨hs, h⟩ := orderly_of_run hr
  have hevents : c.events call = (c.calls call).answers := by
    rw [events, waiting, he]
    exact List.append_nil _
  by_cases hnil : (c.calls call).answers = []
  · right
    have hmem := h.served call hcall (hevents.trans hnil)
    rw [Client.toAdd, hw, List.filterMap_nil, List.append_nil] at hmem
    obtain ⟨x, hx, rfl⟩ := List.mem_map.mp hmem
    rcases hs with ⟨-, hq⟩ | ⟨view, ls, snapshot, hl⟩
    · rw [listeners_none hq] at hx
      cases hx
    · have hraised : x.2.raisedInitialEvent = false :=
        Bool.eq_false_iff.mpr fun hr => (h.raised x hx).mp hr (hevents.trans hnil)
      rw [listeners_some hl.queried] at hx
      obtain ⟨hf, hon⟩ := (hl.tuned x hx).waits hraised
      exact ⟨hon, view, hl.viewed, of_decide_eq_true (hl.of.fromCache ▸ hf)⟩
  · left
    have hle := (answered_once hr call).1
    have hpos := List.length_pos_iff.mpr hnil
    omega

theorem owlListed_idle : owlListed.workerQueue = [] ∧ owlListed.executor.length = 0 ∧
    owlListed.next = 2 := by decide +kernel

theorem unanswered_waits_owl : (owlListed.calls 1).answers.length = 1 ∨
    owlListed.onlineState ≠ .offline ∧ ∃ view, owlListed.view = some view ∧ view.syncState = .local := by
  obtain ⟨hw, he, hn⟩ := owlListed_idle
  exact unanswered_waits run_owlActions hw (List.length_eq_zero_iff.mp he) (by rw [hn]; decide)

/-- In every run the first event of a call has the results of the query at one moment since the call. -/
theorem first_results {documents : DocumentMap} {as : List ClientAction}
    (hr : Runs Client.step Unheld (new documents) as c) :
    c.Showing ∧ ∀ call s, (c.events call).head? = some (some s) → ∃ bs cs c₁, as = bs ++ cs ∧
      Runs Client.step Unheld (new documents) bs c₁ ∧ call < c₁.next ∧
      (c₁.calls call).answers = [] ∧ s.Answers c₁ := by
  induction hr with
  | nil =>
    refine ⟨fun view hv => ?_, fun call s hs => ?_⟩
    · cases hv
    · cases hs
  | @snoc as c a c' hr ha hc ih =>
    obtain ⟨hshow, hfirst⟩ := ih
    obtain ⟨hs, h⟩ := orderly_of_run hr.run_eq
    obtain ⟨hpost, hshow'⟩ := h.posting hs hshow ha hc
    refine ⟨hshow', fun call s hs' => ?_⟩
    rcases hpost call s hs' with hs' | ⟨hcall, hans, hs'⟩
    · obtain ⟨bs, cs, c₁, rfl, h₁⟩ := hfirst call s hs'
      exact ⟨bs, cs ++ [a], c₁, List.append_assoc .., h₁⟩
    · exact ⟨as ++ [a], [], c', (List.append_nil _).symm, .snoc hr ha hc, hcall, hans, hs'⟩

/-- A view shows the results of its query in every run. -/
theorem view_results {documents : DocumentMap} {as : List ClientAction}
    (hr : Runs Client.step Unheld (new documents) as c)
    {view : View q} (hv : c.view = some view) :
    view.documentSet.toList.map Document.data = (q.results c.documents).map Document.data :=
  (first_results hr).1 view hv

theorem owlActions_unheld : ∃ c, Runs Client.step Unheld (new catAndDog : Client latestWords) owlActions c ∧
    (c.view.isSome = true ∧ (c.calls 0).answers.any Option.isSome = true) := exists_runs (by decide +kernel)

theorem view_results_owl :
    ∃ c view, Runs Client.step Unheld (new catAndDog : Client latestWords) owlActions c ∧ c.view = some view ∧
    view.documentSet.toList.map Document.data = (latestWords.results c.documents).map Document.data := by
  obtain ⟨c, hr, hv, -⟩ := owlActions_unheld
  obtain ⟨view, hv⟩ := Option.isSome_iff_exists.mp hv
  exact ⟨c, view, hr, hv, view_results hr hv⟩

/-- An answer has the results of the query at one moment between the call and its answer. -/
theorem answer_results {documents : DocumentMap} {as : List ClientAction}
    (hr : Runs Client.step Unheld (new documents) as c)
    {call : ℕ} {s : ViewSnapshot q} (hs : some s ∈ (c.calls call).answers) : ∃ bs cs c₁, as = bs ++ cs ∧
      Runs Client.step Unheld (new documents) bs c₁ ∧ call < c₁.next ∧
      (c₁.calls call).answers = [] ∧ s.Answers c₁ := by
  refine (first_results hr).2 call s ?_
  have hle := (answered_once hr.run_eq call).1
  obtain ⟨a, ha⟩ : ∃ a, (c.calls call).answers = [a] :=
    List.length_eq_one_iff.mp (le_antisymm hle (List.length_pos_of_mem hs))
  rw [ha] at hs
  rw [events, ha, List.mem_singleton.mp hs]
  rfl

theorem answer_results_owl :
    ∃ (c : Client latestWords) (s : ViewSnapshot latestWords), some s ∈ (c.calls 0).answers ∧
    ∃ bs cs c₁, owlActions = bs ++ cs ∧ Runs Client.step Unheld (new catAndDog) bs c₁ ∧ 0 < c₁.next ∧
      (c₁.calls 0).answers = [] ∧ s.Answers c₁ := by
  obtain ⟨c, hr, -, ha⟩ := owlActions_unheld
  obtain ⟨event, he, hs⟩ := List.any_eq_true.mp ha
  obtain ⟨s, rfl⟩ := Option.isSome_iff_exists.mp hs
  exact ⟨c, s, he, answer_results hr he⟩

end Client

end BlindBoard.Firestore
