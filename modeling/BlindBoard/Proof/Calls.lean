import BlindBoard.Proof.Clients

/-!
# The events of a call

A call's events are those that its callback has been called with and those that wait for
it (`Client.events`). A step adds an event at the end of them, or takes none away but those that a
muted call never sees. What holds of the calls (`Orderly`) gives the answers
to a call: there is one at most, and it is the first event; an error is the last event; and
a call that has no event is on the worker queue or has a listener that has raised none.
-/

namespace BlindBoard.Firestore

open Lib

namespace Client

variable {q : Query} {c c' : Client q} {view : View q} {snapshot : ViewSnapshot q}
  {ls : List (ℕ × QueryListener q)}

/-- The listeners of the query. -/
def listeners (c : Client q) : List (ℕ × QueryListener q) :=
  match c.queries with
  | some queryInfo => queryInfo.listeners
  | none => []

theorem listeners_some {queryInfo : QueryListenersInfo q} (hq : c.queries = some queryInfo) :
    c.listeners = queryInfo.listeners := by
  rw [listeners, hq]

theorem listeners_none (hq : c.queries = none) : c.listeners = [] := by
  rw [listeners, hq]

/-- The calls whose listeners are to be added. -/
def toAdd (c : Client q) : List ℕ :=
  c.workerQueue.filterMap fun task =>
    match task with
    | .addQueryListener call => some call
    | .removeQueryListener _ => none

/-- The events that wait for a call. -/
def waiting (c : Client q) (call : ℕ) : List (Option (ViewSnapshot q)) :=
  (c.executor.filter fun e => e.1 = call).map Prod.snd

/-- The events of a call. -/
def events (c : Client q) (call : ℕ) : List (Option (ViewSnapshot q)) :=
  (c.calls call).answers ++ c.waiting call

/-- What holds of the calls between two steps. -/
structure Orderly (c : Client q) : Prop where
  ids : (c.listeners.map Prod.fst ++ c.toAdd).Nodup
  known : ∀ call ∈ c.listeners.map Prod.fst ++ c.toAdd, call < c.next
  unknown : ∀ call, c.next ≤ call → c.events call = []
  toAdd : ∀ call ∈ c.toAdd, c.events call = []
  raised : ∀ x ∈ c.listeners, x.2.raisedInitialEvent = true ↔ c.events x.1 ≠ []
  served : ∀ call < c.next, c.events call = [] → call ∈ c.listeners.map Prod.fst ++ c.toAdd
  failed : ∀ call, none ∈ c.events call → call ∉ c.listeners.map Prod.fst
  last : ∀ call, none ∉ (c.events call).dropLast
  muted : ∀ call, (c.calls call).muted = true → ∃ s, (c.calls call).answers = [some s]
  unmuted : ∀ call, (c.calls call).muted = false → (c.calls call).answers = [] ∨
    (c.calls call).answers = [none]
  removed : ∀ call, .removeQueryListener call ∈ c.workerQueue → (c.calls call).muted = true

/-! ## What is posted -/

/-- The events that one listener of each call posts. -/
theorem posted_eq {f : QueryListener q → Option (Option (ViewSnapshot q))}
    (hn : (ls.map Prod.fst).Nodup) {x : ℕ × QueryListener q}
    (hx : x ∈ ls) :
    ((ls.filterMap fun y => (f y.2).map fun e => (y.1, e)).filter fun e => e.1 = x.1).map Prod.snd =
      (f x.2).toList := by
  induction ls with
  | nil => cases hx
  | cons y ls ih =>
    obtain ⟨hy, hn⟩ := List.nodup_cons.mp hn
    rw [List.filterMap_cons]
    rcases List.mem_cons.mp hx with rfl | hx
    · -- the others are of other calls
      have hnone : ((ls.filterMap fun y => (f y.2).map fun e => (y.1, e)).filter fun e =>
        e.1 = x.1) = [] := by
        refine List.filter_eq_nil_iff.mpr fun e he => ?_
        obtain ⟨z, hz, hze⟩ := List.mem_filterMap.mp he
        obtain ⟨_, -, rfl⟩ := Option.map_eq_some_iff.mp hze
        simp only [decide_eq_true_eq]
        exact fun h => hy (h ▸ List.mem_map_of_mem hz)
      cases hf : f x.2 <;> simp [hnone]
    · have hne : y.1 ≠ x.1 := fun h => hy (h ▸ List.mem_map_of_mem hx)
      cases hf : f y.2 <;> simp [ih hn hx, hne]

theorem posted_none {f : QueryListener q → Option (Option (ViewSnapshot q))}
    {call : ℕ} (h : call ∉ ls.map Prod.fst) :
    ((ls.filterMap fun y => (f y.2).map fun e => (y.1, e)).filter fun e => e.1 = call).map Prod.snd = [] := by
  rw [List.map_eq_nil_iff, List.filter_eq_nil_iff]
  intro e he
  obtain ⟨z, hz, hze⟩ := List.mem_filterMap.mp he
  obtain ⟨_, -, rfl⟩ := Option.map_eq_some_iff.mp hze
  simp only [decide_eq_true_eq]
  exact fun hc => h (hc ▸ List.mem_map_of_mem hz)

theorem events_append {posted : List (ℕ × Option (ViewSnapshot q))} (hc : c'.calls = c.calls)
    (he : c'.executor = c.executor ++ posted)
    (call : ℕ) : c'.events call = c.events call ++ (posted.filter fun e => e.1 = call).map Prod.snd := by
  rw [events, events, waiting, waiting, hc, he, List.filter_append, List.map_append, List.append_assoc]

/-! ## What a step keeps -/

/-- Listeners that post at most one event each, of what they have not seen. -/
theorem Orderly.post (h : c.Orderly) {f : QueryListener q → QueryListener q}
    {g : QueryListener q → Option (Option (ViewSnapshot q))}
    (hcalls : c'.calls = c.calls) (hnext : c'.next = c.next) (hworker : c'.workerQueue = c.workerQueue)
    (hl : c'.listeners = c.listeners.map fun x => (x.1, f x.2))
    (he : c'.executor = c.executor ++ c.listeners.filterMap fun x => (g x.2).map fun e => (x.1, e))
    (hf : ∀ x ∈ c.listeners, (f x.2).raisedInitialEvent = (x.2.raisedInitialEvent || (g x.2).isSome) ∧
      g x.2 ≠ some none) :
    c'.Orderly := by
  have hids : c'.listeners.map Prod.fst ++ c'.toAdd = c.listeners.map Prod.fst ++ c.toAdd := by
    rw [hl, List.map_map, Client.toAdd, Client.toAdd, hworker]
    rfl
  have hfst : c'.listeners.map Prod.fst = c.listeners.map Prod.fst := by
    rw [hl, List.map_map]
    rfl
  have hnd : (c.listeners.map Prod.fst).Nodup := (List.nodup_append.mp h.ids).1
  have hin {x : ℕ × QueryListener q} (hx : x ∈ c.listeners) : c'.events x.1 = c.events x.1 ++
    (g x.2).toList := by
    rw [events_append hcalls he, posted_eq hnd hx]
  have hout {call : ℕ} (hx : call ∉ c.listeners.map Prod.fst) : c'.events call = c.events call := by
    rw [events_append hcalls he, posted_none hx, List.append_nil]
  have hgrow {call : ℕ} (hn : c'.events call = []) : c.events call = [] := by
    rw [events_append hcalls he] at hn
    exact (List.append_eq_nil_iff.mp hn).1
  refine ⟨hids ▸ h.ids, hids ▸ hnext ▸ h.known, fun call hk => ?_, fun call hk => ?_,
    fun y hy => ?_, fun call hk hn => ?_,
    fun call hn => ?_, fun call hn => ?_, hcalls ▸ h.muted, hcalls ▸ h.unmuted, fun call hr => ?_⟩
  · rw [hout fun hx => absurd (h.known call (List.mem_append_left _ hx)) (by omega)]
    exact h.unknown call (hnext ▸ hk)
  · have hk' : call ∈ c.toAdd := by
      rwa [Client.toAdd, hworker] at hk
    rw [hout fun hx => (List.nodup_append.mp h.ids).2.2 call hx call hk' rfl]
    exact h.toAdd call hk'
  · rw [hl] at hy
    obtain ⟨x, hx, rfl⟩ := List.mem_map.mp hy
    dsimp only
    rw [(hf x hx).1, hin hx, Bool.or_eq_true, h.raised x hx]
    cases g x.2 <;> simp
  · rw [hids]
    exact h.served call (hnext ▸ hk) (hgrow hn)
  · rw [hfst]
    intro hcall
    obtain ⟨x, hx, rfl⟩ := List.mem_map.mp hcall
    rw [hin hx] at hn
    rcases List.mem_append.mp hn with hn | hn
    · exact h.failed x.1 hn hcall
    · exact (hf x hx).2 (Option.mem_toList.mp hn)
  · by_cases hcall : call ∈ c.listeners.map Prod.fst
    · obtain ⟨x, hx, rfl⟩ := List.mem_map.mp hcall
      rw [hin hx] at hn
      rcases List.mem_append.mp (List.mem_of_mem_dropLast hn) with hn | hn
      · exact h.failed x.1 hn hcall
      · exact (hf x hx).2 (Option.mem_toList.mp hn)
    · rw [hout hcall] at hn
      exact h.last call hn
  · rw [hworker] at hr
    rw [hcalls]
    exact h.removed call hr

theorem Orderly.notified (h : c.Orderly) (hl : c.listeners = ls) (hn : Notified snapshot ls c c') :
    c'.Orderly := by
  obtain ⟨f, hf, hq, he⟩ := hn.handled
  subst hl
  refine h.post (f := fun l => (f l).1) (g := fun l => (f l).2.map some)
    hn.calls hn.next hn.workerQueue ?_ ?_ fun x hx => ?_
  · rw [listeners, hq]
  · simp only [he, Option.map_map]
    rfl
  · refine ⟨by rw [(hf x hx).raised, Option.isSome_map], fun hs => ?_⟩
    obtain ⟨_, -, hs⟩ := Option.map_eq_some_iff.mp hs
    cases hs

/-- The worker queue has added the listener of a call. -/
theorem Orderly.added (h : c.Orderly) {call : ℕ} {tasks : List WorkerTask}
    (hw : c.workerQueue = .addQueryListener call :: tasks)
    (hl : c.listeners = ls) (ha : Added call view ls snapshot { c with workerQueue := tasks } c') :
    c'.Orderly := by
  obtain ⟨l, r, hraised, hr, hq, he⟩ := ha.handled
  subst hl
  have hadd : c.toAdd = call :: c'.toAdd := by
    rw [Client.toAdd, Client.toAdd, hw, ha.workerQueue]
    rfl
  have hlist : c'.listeners = c.listeners ++ [(call, r.1)] := by
    rw [listeners, hq]
  have hids : c'.listeners.map Prod.fst ++ c'.toAdd = c.listeners.map Prod.fst ++ c.toAdd := by
    rw [hlist, hadd, List.map_append, List.append_assoc]
    rfl
  have hnew : c.events call = [] := h.toAdd call (hadd ▸ List.mem_cons_self)
  have hcall : c'.events call = (r.2.map some).toList := by
    rw [events_append ha.calls he, show ({ c with workerQueue := tasks } : Client q).events call =
      c.events call from rfl, hnew]
    cases r.2 <;> simp
  have hother {i : ℕ} (hi : i ≠ call) : c'.events i = c.events i := by
    rw [events_append ha.calls he]
    show c.events i ++ _ = _
    cases r.2 with
    | none => simp
    | some s => simp [hi.symm]
  have hnodup := hids ▸ h.ids
  refine ⟨hnodup, hids ▸ ha.next ▸ h.known, fun i hi => ?_, fun i hi => ?_,
    fun x hx => ?_, fun i hi hn => ?_, fun i hn => ?_,
    fun i hn => ?_, ha.calls ▸ h.muted, ha.calls ▸ h.unmuted, fun i hi => ?_⟩
  · have hi' : c.next ≤ i := ha.next ▸ hi
    have hlt := h.known call (List.mem_append_right _ (hadd ▸ List.mem_cons_self))
    rw [hother (by omega)]
    exact h.unknown i hi'
  · have hne : i ≠ call := by
      rintro rfl
      have := (List.nodup_append.mp h.ids).2.1
      rw [hadd] at this
      exact (List.nodup_cons.mp this).1 hi
    rw [hother hne]
    exact h.toAdd i (hadd ▸ List.mem_cons_of_mem _ hi)
  · rw [hlist] at hx
    rcases List.mem_append.mp hx with hx | hx
    · have hne : x.1 ≠ call := fun he =>
        (List.nodup_append.mp h.ids).2.2 x.1 (List.mem_map_of_mem hx) call (hadd ▸ List.mem_cons_self) he
      rw [hother hne]
      exact h.raised x hx
    · obtain rfl := List.mem_singleton.mp hx
      rw [hcall, hr.raised, hraised, Bool.false_or]
      cases r.2 <;> simp
  · rw [hids]
    by_cases he : i = call
    · subst he
      exact List.mem_append_right _ (hadd ▸ List.mem_cons_self)
    · exact h.served i (ha.next ▸ hi) (hother he ▸ hn)
  · have hne : i ≠ call := by
      rintro rfl
      rw [hcall] at hn
      cases hr2 : r.2 <;> simp [hr2] at hn
    rw [hother hne] at hn
    rw [hlist, List.map_append, List.mem_append]
    rintro (hi | hi)
    · exact h.failed i hn hi
    · exact hne (List.mem_singleton.mp hi)
  · by_cases hne : i = call
    · subst hne
      rw [hcall] at hn
      cases hr2 : r.2 <;> simp [hr2] at hn
    · rw [hother hne] at hn
      exact h.last i hn
  · rw [ha.calls]
    have hw' : c'.workerQueue = tasks := ha.workerQueue
    rw [hw'] at hi
    exact h.removed i (hw ▸ List.mem_cons_of_mem _ hi)

/-- Some listeners have gone, of calls that have an event. -/
theorem Orderly.gone (h : c.Orderly) (hcalls : c'.calls = c.calls) (hnext : c'.next = c.next)
    (hexec : c'.executor = c.executor)
    (hadd : c'.toAdd = c.toAdd) (hsub : c'.listeners.Sublist c.listeners)
    (hgone : ∀ call ∈ c.listeners.map Prod.fst, c.events call = [] → call ∈ c'.listeners.map Prod.fst)
    (hr : ∀ call, .removeQueryListener call ∈ c'.workerQueue →
      .removeQueryListener call ∈ c.workerQueue) : c'.Orderly := by
  have hev (call : ℕ) : c'.events call = c.events call := by
    rw [events, events, waiting, waiting, hcalls, hexec]
  have hids : (c'.listeners.map Prod.fst ++ c'.toAdd).Sublist (c.listeners.map Prod.fst ++ c.toAdd) := by
    rw [hadd]
    exact (hsub.map _).append_right _
  refine ⟨h.ids.sublist hids, fun call hc => hnext ▸ h.known call (hids.subset hc),
    fun call hc => ?_, fun call hc => ?_,
    fun x hx => ?_, fun call hc hn => ?_, fun call hn => ?_, fun call => ?_,
    hcalls ▸ h.muted, hcalls ▸ h.unmuted, fun call hc => ?_⟩
  · rw [hev]
    exact h.unknown call (hnext ▸ hc)
  · rw [hev]
    exact h.toAdd call (hadd ▸ hc)
  · rw [hev]
    exact h.raised x (hsub.subset hx)
  · rw [hev] at hn
    rcases List.mem_append.mp (h.served call (hnext ▸ hc) hn) with hl | hl
    · exact List.mem_append_left _ (hgone call hl hn)
    · exact List.mem_append_right _ (hadd ▸ hl)
  · rw [hev] at hn
    exact fun hl => h.failed call hn ((hsub.map _).subset hl)
  · rw [hev]
    exact h.last call
  · rw [hcalls]
    exact h.removed call (hr call hc)

/-- The documents, the online state and the view have no part in it. -/
theorem Orderly.congr (h : c.Orderly) (hq : c'.queries = c.queries) (hw : c'.workerQueue = c.workerQueue)
    (hcalls : c'.calls = c.calls) (hnext : c'.next = c.next) (hexec : c'.executor = c.executor) :
    c'.Orderly := by
  have hl : c'.listeners = c.listeners := by rw [listeners, listeners, hq]
  have hadd : c'.toAdd = c.toAdd := by rw [Client.toAdd, Client.toAdd, hw]
  exact h.gone hcalls hnext hexec hadd (hl ▸ List.Sublist.refl _) (fun _ hi _ => hl ▸ hi) fun _ hr => hw ▸ hr

/-- Every listener has got an error, and none is left. -/
theorem Orderly.errors (h : c.Orderly) (hcalls : c'.calls = c.calls) (hnext : c'.next = c.next)
    (hworker : c'.workerQueue = c.workerQueue) (hl : c'.listeners = [])
    (he : c'.executor = c.executor ++ c.listeners.map fun l => (l.1, none)) : c'.Orderly := by
  have hadd : c'.toAdd = c.toAdd := by rw [Client.toAdd, Client.toAdd, hworker]
  have he' : c'.executor = c.executor ++ c.listeners.filterMap fun x =>
    ((fun _ => some none) x.2).map fun e => (x.1, e) := by
    rw [he]
    simp
  have hnd : (c.listeners.map Prod.fst).Nodup := (List.nodup_append.mp h.ids).1
  have hin {x : ℕ × QueryListener q} (hx : x ∈ c.listeners) : c'.events x.1 = c.events x.1 ++ [none] := by
    rw [events_append hcalls he', posted_eq (f := fun _ => some none) hnd hx]
    rfl
  have hout {call : ℕ} (hx : call ∉ c.listeners.map Prod.fst) : c'.events call = c.events call := by
    rw [events_append hcalls he', posted_none (f := fun _ => some none) hx, List.append_nil]
  refine ⟨?_, fun call hc => ?_, fun call hc => ?_, fun call hc => ?_,
    fun x hx => ?_, fun call hc hn => ?_, fun call _ hx => ?_,
    fun call hn => ?_, hcalls ▸ h.muted, hcalls ▸ h.unmuted, fun call hr => ?_⟩
  · rw [hl, hadd]
    exact (List.nodup_append.mp h.ids).2.1
  · rw [hl, hadd] at hc
    exact hnext ▸ h.known call (List.mem_append_right _ hc)
  · rw [hout fun hx => absurd (h.known call (List.mem_append_left _ hx)) (by omega)]
    exact h.unknown call (hnext ▸ hc)
  · rw [hadd] at hc
    rw [hout fun hx => (List.nodup_append.mp h.ids).2.2 call hx call hc rfl]
    exact h.toAdd call hc
  · rw [hl] at hx
    cases hx
  · rw [hl, hadd]
    by_cases hcall : call ∈ c.listeners.map Prod.fst
    · obtain ⟨x, hx, rfl⟩ := List.mem_map.mp hcall
      rw [hin hx] at hn
      simp at hn
    · rw [hout hcall] at hn
      exact (List.mem_append.mp (h.served call (hnext ▸ hc) hn)).resolve_left hcall
  · rw [hl] at hx
    cases hx
  · by_cases hcall : call ∈ c.listeners.map Prod.fst
    · obtain ⟨x, hx, rfl⟩ := List.mem_map.mp hcall
      rw [hin hx, List.dropLast_concat] at hn
      exact h.failed x.1 hn hcall
    · rw [hout hcall] at hn
      exact h.last call hn
  · rw [hworker] at hr
    rw [hcalls]
    exact h.removed call hr

theorem Orderly.getDocuments (h : c.Orderly) : c.getDocuments.Orderly := by
  have hadd : c.getDocuments.toAdd = c.toAdd ++ [c.next] := by
    simp [Client.toAdd, Client.getDocuments]
  have hids : c.getDocuments.listeners.map Prod.fst ++ c.getDocuments.toAdd =
      c.listeners.map Prod.fst ++ c.toAdd ++ [c.next] := by
    rw [hadd, List.append_assoc]
    rfl
  have hnew : c.next ∉ c.listeners.map Prod.fst ++ c.toAdd := fun hc => absurd (h.known _ hc) (lt_irrefl _)
  refine ⟨?_, fun call hc => ?_, fun call hc => h.unknown call (Nat.le_of_succ_le hc),
    fun call hc => ?_, h.raised,
    fun call hc hn => ?_, h.failed, h.last, h.muted, h.unmuted, fun call hr => ?_⟩
  · rw [hids]
    refine List.nodup_append.mpr ⟨h.ids, List.nodup_singleton _, fun a ha b hb => ?_⟩
    obtain rfl := List.mem_singleton.mp hb
    rintro rfl
    exact hnew ha
  · rw [hids] at hc
    rcases List.mem_append.mp hc with hc | hc
    · exact Nat.lt_succ_of_lt (h.known call hc)
    · obtain rfl := List.mem_singleton.mp hc
      exact Nat.lt_succ_self _
  · rw [hadd] at hc
    rcases List.mem_append.mp hc with hc | hc
    · exact h.toAdd call hc
    · obtain rfl := List.mem_singleton.mp hc
      exact h.unknown _ le_rfl
  · rw [hids]
    rcases Nat.lt_succ_iff_lt_or_eq.mp hc with hc | rfl
    · exact List.mem_append_left _ (h.served call hc hn)
    · exact List.mem_append_right _ (List.mem_singleton_self _)
  · refine h.removed call ?_
    simpa [Client.getDocuments] using hr

/-! ## The caller and the executor -/

/-- No event has been added, and none that comes first has gone: only a muted call loses one. -/
structure Handed (c c' : Client q) : Prop where
  documents : c'.documents = c.documents
  view : c'.view = c.view
  queries : c'.queries = c.queries
  onlineState : c'.onlineState = c.onlineState
  toAdd : c'.toAdd = c.toAdd
  next : c'.next = c.next
  events : ∀ call, c'.events call = c.events call ∨ ∃ a e rest,
  c.events call = a :: e :: rest ∧ c'.events call = a :: rest
  muted : ∀ call, (c'.calls call).muted = true → ∃ s, (c'.calls call).answers = [some s]
  unmuted : ∀ call, (c'.calls call).muted = false → (c'.calls call).answers = [] ∨
    (c'.calls call).answers = [none]
  removed : ∀ call, .removeQueryListener call ∈ c'.workerQueue → (c'.calls call).muted = true

theorem Handed.head (h : Handed c c') (call : ℕ) : (c'.events call).head? = (c.events call).head? := by
  rcases h.events call with he | ⟨_, _, _, he, he'⟩
  · rw [he]
  · rw [he, he']
    rfl

theorem mem_dropLast_cons {α : Type} {a b x : α} {l : List α} (h : x ∈ (a :: l).dropLast) :
    x ∈ (a :: b :: l).dropLast := by
  cases l with
  | nil => cases h
  | cons d l =>
    rw [List.dropLast_cons_cons] at h
    rw [List.dropLast_cons_cons, List.dropLast_cons_cons]
    rcases List.mem_cons.mp h with rfl | h
    · exact List.mem_cons_self
    · exact List.mem_cons_of_mem _ (List.mem_cons_of_mem _ h)

theorem Orderly.handed (h : c.Orderly) (hh : Handed c c') : c'.Orderly := by
  have hl : c'.listeners = c.listeners := by rw [listeners, listeners, hh.queries]
  have hnil (call : ℕ) : c'.events call = [] ↔ c.events call = [] := by
    rw [← List.head?_eq_none_iff, ← List.head?_eq_none_iff, hh.head]
  have hmem {call : ℕ} {e : Option (ViewSnapshot q)} (he : e ∈ c'.events call) : e ∈ c.events call := by
    rcases hh.events call with h | ⟨a, _, rest, h, h'⟩
    · rwa [h] at he
    · rw [h'] at he
      rw [h]
      rcases List.mem_cons.mp he with rfl | he
      · exact List.mem_cons_self
      · exact List.mem_cons_of_mem _ (List.mem_cons_of_mem _ he)
  refine ⟨hl ▸ hh.toAdd ▸ h.ids, hl ▸ hh.toAdd ▸ hh.next ▸ h.known,
    fun call hc => (hnil call).mpr (h.unknown call (hh.next ▸ hc)),
    fun call hc => (hnil call).mpr (h.toAdd call (hh.toAdd ▸ hc)), fun x hx => ?_,
    fun call hc hn => ?_, fun call hn => ?_,
    fun call hn => ?_, hh.muted, hh.unmuted, hh.removed⟩
  · rw [Ne, hnil]
    exact h.raised x (hl ▸ hx)
  · rw [hl, hh.toAdd]
    exact h.served call (hh.next ▸ hc) ((hnil call).mp hn)
  · rw [hl]
    exact h.failed call (hmem hn)
  · rcases hh.events call with he | ⟨_, _, _, he, he'⟩
    · rw [he] at hn
      exact h.last call hn
    · rw [he'] at hn
      refine h.last call ?_
      rw [he]
      exact mem_dropLast_cons hn

theorem Orderly.resolved (h : c.Orderly) (call : ℕ) : Handed c (c.resolve call) := by
  have hans (i : ℕ) : ((c.resolve call).calls i).answers = (c.calls i).answers := by
    by_cases hi : i = call
    · subst hi
      simp [resolve]
    · simp [resolve, hi]
  have hmuted (i : ℕ) : ((c.resolve call).calls i).muted = (c.calls i).muted := by
    by_cases hi : i = call
    · subst hi
      simp [resolve]
    · simp [resolve, hi]
  refine ⟨rfl, rfl, rfl, rfl, rfl, rfl, fun i => .inl ?_, fun i hi => ?_, fun i hi => ?_, fun i hi => ?_⟩
  · rw [events, events, hans]
    rfl
  · rw [hans]
    exact h.muted i (hmuted i ▸ hi)
  · rw [hans]
    exact h.unmuted i (hmuted i ▸ hi)
  · rw [hmuted]
    exact h.removed i hi

theorem waiting_cons {e : ℕ × Option (ViewSnapshot q)} {rest : List (ℕ × Option (ViewSnapshot q))}
    (he : c.executor = e :: rest)
    (hr : c'.executor = rest) (call : ℕ) :
    c.waiting call = if e.1 = call then e.2 :: c'.waiting call else c'.waiting call := by
  rw [waiting, waiting, he, hr, List.filter_cons]
  split
  next h => rw [if_pos (of_decide_eq_true h), List.map_cons]
  next h => rw [if_neg fun hc => h (decide_eq_true hc)]

/-- What the callback of a call without an answer changes. -/
structure Answering (call : ℕ) (event : Option (ViewSnapshot q)) (c c' : Client q) : Prop where
  documents : c'.documents = c.documents
  view : c'.view = c.view
  queries : c'.queries = c.queries
  onlineState : c'.onlineState = c.onlineState
  toAdd : c'.toAdd = c.toAdd
  next : c'.next = c.next
  own : c.waiting call = event :: c'.waiting call
  others : ∀ i, i ≠ call → c'.waiting i = c.waiting i ∧ c'.calls i = c.calls i
  answers : (c'.calls call).answers = [event]
  muted : (c'.calls call).muted = event.isSome
  removed : ∀ i, .removeQueryListener i ∈ c'.workerQueue → i = call ∧ event.isSome = true ∨
    .removeQueryListener i ∈ c.workerQueue

/-- The callback of a call without an answer is called. -/
theorem Orderly.answered (h : c.Orderly) {call : ℕ} {event : Option (ViewSnapshot q)}
    (hnil : (c.calls call).answers = [])
    (hm : (c.calls call).muted = false) (ha : Answering call event c c') : Handed c c' := by
  refine ⟨ha.documents, ha.view, ha.queries, ha.onlineState, ha.toAdd,
    ha.next, fun i => .inl ?_, fun i hi => ?_, fun i hi => ?_,
    fun i hi => ?_⟩
  · by_cases he : i = call
    · subst he
      rw [events, events, ha.own, ha.answers, hnil]
      rfl
    · rw [events, events, (ha.others i he).1, (ha.others i he).2]
  · by_cases he : i = call
    · subst he
      obtain ⟨s, hs⟩ := Option.isSome_iff_exists.mp (ha.muted.symm.trans hi)
      exact ⟨s, hs ▸ ha.answers⟩
    · rw [(ha.others i he).2] at hi ⊢
      exact h.muted i hi
  · by_cases he : i = call
    · subst he
      have hnone : event = none := by simpa using ha.muted.symm.trans hi
      exact .inr (hnone ▸ ha.answers)
    · rw [(ha.others i he).2] at hi ⊢
      exact h.unmuted i hi
  · by_cases he : i = call
    · subst he
      rcases ha.removed i hi with ⟨-, hs⟩ | hi
      · exact ha.muted.trans hs
      · exact absurd (h.removed i hi) (by simp [hm])
    · rw [(ha.others i he).2]
      exact h.removed i ((ha.removed i hi).resolve_left fun h => he h.1)

/-- The executor hands an event to its call, or drops it if the call is muted. -/
theorem Orderly.executed (h : c.Orderly) : Handed c c.execute := by
  unfold execute
  split
  · exact ⟨rfl, rfl, rfl, rfl, rfl, rfl, fun _ => .inl rfl, h.muted, h.unmuted, h.removed⟩
  next call event rest he =>
    have hown (c' : Client q) (hr : c'.executor = rest) : c.waiting call = event :: c'.waiting call := by
      rw [waiting_cons he hr, if_pos rfl]
    have hwait (c' : Client q) (hr : c'.executor = rest) (i : ℕ) (hi : i ≠ call) :
      c'.waiting i = c.waiting i := by
      rw [waiting_cons he hr, if_neg hi.symm]
    dsimp only
    cases hm : (c.calls call).muted with
    | true =>
      -- the event is dropped
      rw [if_pos rfl]
      obtain ⟨s, ha⟩ := h.muted call hm
      refine ⟨rfl, rfl, rfl, rfl, rfl, rfl, fun i => ?_, h.muted, h.unmuted, h.removed⟩
      by_cases hi : i = call
      · subst hi
        refine .inr ⟨some s, event, ({ c with executor := rest } : Client q).waiting i, ?_, ?_⟩
        · rw [events, hown { c with executor := rest } rfl, ha]
          rfl
        · rw [events, ha]
          rfl
      · exact .inl (congrArg (_ ++ ·) (hwait { c with executor := rest } rfl i hi))
    | false =>
      rw [if_neg (by simp)]
      -- an answer before the event is no error
      have hnil : (c.calls call).answers = [] := by
        refine (h.unmuted call hm).resolve_right fun ha => h.last call ?_
        rw [events, ha, hown { c with executor := rest } rfl]
        exact List.mem_cons_self
      split
      · refine h.answered hnil hm ⟨rfl, rfl, rfl, rfl, rfl, rfl, hown _ rfl,
          fun i hi => ⟨hwait _ rfl i hi, ?_⟩, ?_, ?_,
          fun i hi => .inr hi⟩
        · exact Function.update_of_ne hi _ _
        · simp [answer, hnil]
        · simp [answer, hm]
      next s =>
        split
        · refine h.answered hnil hm ⟨rfl, rfl, rfl, rfl, ?_, rfl, hown _ rfl,
            fun i hi => ⟨hwait _ rfl i hi, ?_⟩, ?_, ?_,
            fun i hi => ?_⟩
          · simp [Client.toAdd, answer, remove]
          · simp [answer, remove, hi]
          · simp [answer, remove, hnil]
          · simp [answer, remove]
          · simpa [answer, remove, or_comm] using hi
        · exact ⟨rfl, rfl, rfl, rfl, rfl, rfl, fun _ => .inl rfl, h.muted, h.unmuted, h.removed⟩

/-! ## A step and a run -/

theorem Orderly.work (h : c.Orderly) (hs : c.Sound) {remoteKeys : DocumentKeySet} {mirror : Option SyncState}
    (hc : c.work remoteKeys mirror = some c') : c'.Orderly := by
  unfold Client.work at hc
  split at hc
  · cases hc
    exact h
  next call tasks hw =>
    have hs' : ({ c with workerQueue := tasks } : Client q).Sound := hs.congr rfl rfl rfl rfl
    obtain ⟨_, _, ls, _, hc', ha, hcases⟩ := addQueryListener_added hs' call remoteKeys mirror
    cases hc.symm.trans hc'
    refine h.added hw ?_ ha
    rcases hcases with ⟨-, hq, rfl, -⟩ | ⟨old, hq, -⟩
    · exact listeners_none hq
    · exact listeners_some hq
  next call tasks hw =>
    have hs' : ({ c with workerQueue := tasks } : Client q).Sound := hs.congr rfl rfl rfl rfl
    obtain ⟨view, queries, hc', hcases⟩ := removeQueryListener_eq hs' call
    cases hc.symm.trans hc'
    -- the call has its answer
    have hevent : c.events call ≠ [] := by
      obtain ⟨s, ha⟩ := h.muted call (h.removed call (hw ▸ List.mem_cons_self))
      rw [events, ha]
      simp
    refine h.gone rfl rfl rfl ?_ ?_ (fun i hi hn => ?_) fun i hi => hw ▸ List.mem_cons_of_mem _ hi
    · rw [Client.toAdd, Client.toAdd, hw]
      rfl
    · rcases hcases with ⟨-, rfl⟩ | ⟨-, rfl, -⟩
      · cases hq : c.queries with
        | none => simp [listeners, hq]
        | some queryInfo => simp [listeners, hq]
      · exact List.nil_sublist _
    · have hne : i ≠ call := by
        rintro rfl
        exact hevent hn
      cases hq : c.queries with
      | none => simp [listeners, hq] at hi
      | some queryInfo =>
        rw [listeners_some hq] at hi
        obtain ⟨x, hx, rfl⟩ := List.mem_map.mp hi
        rcases hcases with ⟨-, rfl⟩ | ⟨-, -, hall⟩
        · refine List.mem_map.mpr ⟨x, ?_, rfl⟩
          simpa [listeners, hq] using ⟨hx, hne⟩
        · exact absurd (hall queryInfo hq x hx) hne

/-- A step keeps the calls of a sound client in order. -/
theorem Orderly.step {a : ClientAction} (h : c.Orderly) (hs : c.Sound) (hc : c.step a = some c') :
    c'.Orderly := by
  cases a with
  | getDocuments =>
    cases hc
    exact h.getDocuments
  | resolve call =>
    cases hc
    exact h.handed (h.resolved call)
  | execute =>
    cases hc
    exact h.handed h.executed
  | work remoteKeys mirror => exact h.work hs hc
  | listenRejected =>
    cases hc
    show c.listenRejected.Orderly
    rcases hs with ⟨hv, -⟩ | ⟨view, ls, snapshot, hl⟩
    · rw [listenRejected, hv]
      exact h
    · rw [listenRejected_eq hl]
      refine h.errors rfl rfl rfl rfl ?_
      rw [listeners_some hl.queried]
  | documentsChanged changes targetChange =>
    change c.documentsChanged changes targetChange = some c' at hc
    rcases hs with ⟨hv, hq⟩ | ⟨view, ls, snapshot, hl⟩
    · rw [documentsChanged, hv] at hc
      cases hc
      exact h.congr rfl rfl rfl rfl rfl
    · obtain ⟨d, -, -, hsome⟩ := documentsChanged_brought hl changes targetChange
      obtain ⟨view', _, _, -, -, hn, -⟩ := hsome c' hc
      have h' : ({ c with documents := c.documents.update changes, view := some view' } : Client q).Orderly :=
        h.congr rfl rfl rfl rfl rfl
      exact h'.notified (listeners_some hl.queried) hn
  | onlineStateChanged onlineState =>
    change c.onlineStateChanged onlineState = some c' at hc
    rcases hs with ⟨hv, hq⟩ | ⟨view, ls, snapshot, hl⟩
    · rw [onlineStateChanged, hv] at hc
      dsimp only at hc
      rw [handleOnlineStateChange, hq] at hc
      cases hc
      exact h.congr hq.symm rfl rfl rfl rfl
    · obtain ⟨_, c₁, view', _, _, hc', -, -, -, -, hn, -, -, hq₁, hn', -⟩ :=
        onlineStateChanged_brought hl onlineState
      cases hc.symm.trans hc'
      have h' : ({ c with view := some view' } : Client q).Orderly := h.congr rfl rfl rfl rfl rfl
      exact (h'.notified (listeners_some hl.queried) hn).notified (listeners_some hq₁) hn'

theorem orderly_new (documents : DocumentMap) : (new documents : Client q).Orderly := by
  refine ⟨List.nodup_nil, ?_, fun _ _ => rfl, ?_, ?_, fun _ hc => absurd hc (Nat.not_lt_zero _), ?_, ?_, ?_,
    fun _ _ => .inl rfl, ?_⟩
  all_goals
    intro _ hc
    cases hc

/-- In every run a client is sound, and its calls are in order. -/
theorem orderly_of_run {documents : DocumentMap} {as : List ClientAction}
    (hr : run Client.step (new documents) as = some c) :
    c.Sound ∧ c.Orderly := by
  have hstep (c c' : Client q) (a : ClientAction) (h : c.Sound ∧ c.Orderly) (hc : c.step a = some c') :
    c'.Sound ∧ c'.Orderly :=
    ⟨h.1.step hc, h.2.step h.1 hc⟩
  exact (runs_of_run hr).inv (fun c a c' h _ hc => hstep c c' a h hc)
    ⟨sound_new documents, orderly_new documents⟩

end Client

end BlindBoard.Firestore
