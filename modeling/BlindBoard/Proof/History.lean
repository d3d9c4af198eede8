import BlindBoard.Impl.Timeline
import BlindBoard.Proof.Names
import BlindBoard.Proof.Moves

/-!
# What a step adds to the log

A step appends to the log, and every call that it sends is noted there
(`App.Adds`). What it notes is explained by the step (`act_adds`): a text that
names an instant is the step's own, a word that is on its way to a document has
a UUID, and a list that is assigned is the answer to a query for it.
-/

namespace BlindBoard

open Lib

/-- The text of `Date().ISO8601Format()` that a call carries. -/
def Call.madeDate : Call → Option String
  | .setData _ writtenTime _ _ => some writtenTime
  | .addDocument _ _ _ comment => some comment.commentMadeDate
  | _ => none

/-- The text of `Date().ISO8601Format()` in a step. -/
def Action.now : Action → Option String
  | .saveComment _ now _ | .answer _ now => some now
  | _ => none

/-- From `a` to `a'` events are noted that `ok` holds of, among them all calls sent. -/
structure App.Adds (ok : Event → Prop) (a a' : App) : Prop where
  log : ∃ events, a'.log = a.log ++ events ∧ ∀ e ∈ events, ok e
  net : ∀ p ∈ a'.net, p ∈ a.net ∨ p.answer = none ∧ .issued p.ticket p.call ∈ a'.log
  uid : a'.uid = a.uid

namespace App.Adds

variable {ok : Event → Prop} {a a' a'' : App}

theorem trans (h : a.Adds ok a') (h' : a'.Adds ok a'') : a.Adds ok a'' where
  log := by
    obtain ⟨es, he, hok⟩ := h.log
    obtain ⟨es', he', hok'⟩ := h'.log
    refine ⟨es ++ es', by rw [he', he, List.append_assoc], fun e hm => ?_⟩
    exact (List.mem_append.mp hm).elim (hok e) (hok' e)
  net p hp := by
    rcases h'.net p hp with hp | hp
    · rcases h.net p hp with hp | ⟨ha, hi⟩
      · exact .inl hp
      · obtain ⟨es, he, -⟩ := h'.log
        exact .inr ⟨ha, he ▸ List.mem_append_left _ hi⟩
    · exact .inr hp
  uid := h'.uid.trans h.uid

/-- Nothing is noted and nothing sent. -/
theorem silent (hl : a'.log = a.log) (hn : ∀ p ∈ a'.net, p ∈ a.net) (hu : a'.uid = a.uid) : a.Adds ok a' :=
  ⟨⟨[], by rw [hl, List.append_nil], by simp⟩, fun p hp => .inl (hn p hp), hu⟩

theorem refl : a.Adds ok a := silent rfl (fun _ h => h) rfl

theorem take (ticket : Nat) : a.Adds ok (a.take ticket) :=
  silent rfl (fun _ hp => (List.mem_filter.mp hp).1) rfl

/-- One event is noted, and nothing sent. -/
theorem note (e : Event) (hl : a'.log = a.log ++ [e]) (he : ok e) (hn : a'.net = a.net)
    (hu : a'.uid = a.uid) : a.Adds ok a' :=
  ⟨⟨[e], hl, by simpa using he⟩, fun _ hp => .inl (hn ▸ hp), hu⟩

theorem record (h : a.Adds ok a') {e : Event} (he : ok e) : a.Adds ok (a'.record e) :=
  h.trans (note e rfl he rfl rfl)

theorem issue (h : a.Adds ok a') {call : Call} (hc : ∀ t, ok (.issued t call)) :
    a.Adds ok (a'.issue call) := by
  refine h.trans ⟨⟨_, rfl, by simpa using hc _⟩, fun p hp => ?_, rfl⟩
  rcases List.mem_append.mp hp with hp | hp
  · exact .inl hp
  · rw [List.mem_singleton.mp hp]
    exact .inr ⟨rfl, by simp [App.issue]⟩

theorem showLoader (h : a.Adds ok a') (v : View) (b : Bool) : a.Adds ok (a'.showLoader v b) := by
  unfold App.showLoader
  cases b
  · exact h.trans (silent rfl (fun _ h => h) rfl)
  · simp only
    split
    · exact h
    · exact h.trans (silent rfl (fun _ h => h) rfl)

theorem dismiss (h : a.Adds ok a') : a.Adds ok a'.dismiss := h.trans (silent rfl (fun _ h => h) rfl)

theorem objectDeleted (h : a.Adds ok a') (screen : Nat) : a.Adds ok (a'.objectDeleted screen) := by
  unfold App.objectDeleted
  simp only
  split
  · exact (h.showLoader (.detail screen) false).trans (silent rfl (fun _ h => h) rfl)
  · exact h.showLoader _ _

theorem addContent (h : a.Adds ok a') {w : Word} (hw : ∀ t, ok (.issued t (.dataTask w))) (url : Bool) :
    a.Adds ok (a'.addContent w url) := by
  cases url
  · exact h
  · exact h.issue hw

theorem imagesFetched (h : a.Adds ok a') {w : Word} (web : Web) (fileName : UUID)
    (hw : ∀ t f d, ok (.issued t (.putData w f d))) : a.Adds ok (a'.imagesFetched w web fileName) := by
  unfold App.imagesFetched App.imageUpload
  split
  · split
    · exact h.showLoader _ _
    · split
      · exact h.issue fun t => hw t _ _
      · exact h
  · exact h

theorem fetchComment (h : a.Adds ok a') (screen : Nat)
    (hw : ∀ t uid, ok (.issued t (.reloadComment screen uid))) :
    a.Adds ok (a'.fetchComment screen) := by
  unfold App.fetchComment
  split
  · exact h.issue fun t => hw t _
  · exact h

end App.Adds

/-- What a step may note: see above. -/
def Action.Explains (s : State) (a : Action) : Event → Prop
  | .issued _ call =>
    (∀ date, call.madeDate = some date → a.now = some date) ∧ ∀ w, call.word = some w → IsUUID w.uid
  | .loaded ticket _ words => ∃ p ∈ s.app.net, ∃ documents k, p.ticket = ticket ∧ p.call = .loadData ∧
    p.answer = some ⟨.documents documents, k⟩ ∧ words = documents.map fun d => Word.ofDictionary d.2
  | .reloaded screen ticket _ comments => ∃ p ∈ s.app.net, ∃ uid documents k, p.ticket = ticket ∧
    p.call = .reloadComment screen uid ∧ p.answer = some ⟨.documents documents, k⟩ ∧
    comments = documents.map fun d => Comment.ofDictionary d.2
  | _ => True

/-- A call that carries no text of an instant and no word. -/
theorem Action.explains_plain {s : State} {a : Action} {call : Call} (hd : call.madeDate = none)
    (hw : call.word = none) (t : Nat) : a.Explains s (.issued t call) :=
  ⟨by simp [hd], by simp [hw]⟩

/-- The calls in flight that carry a word carry one with a UUID. -/
def App.Named (a : App) : Prop := ∀ p ∈ a.net, ∀ w, p.call.word = some w → IsUUID w.uid

theorem answered_adds {s : State} {p : InFlight} {answer : Answer} {now : String}
    {a : Action} (hN : s.app.Named)
    (hp : p ∈ s.app.net) (ha : p.answer = some answer) (hn : a.now = some now) :
    s.app.Adds (a.Explains s) ((s.app.take p.ticket).answered p.ticket p.call answer now) := by
  have hw := hN p hp
  have dated {call : Call} (hc : call.word = p.call.word)
    (hd : ∀ date, call.madeDate = some date → now = date) (t : Nat) :
      a.Explains s (.issued t call) :=
    ⟨fun date h => by rw [hn, hd date h], fun w h => hw w (hc ▸ h)⟩
  have plain := @Action.explains_plain s a
  unfold App.answered
  split
  next hc _ => exact (App.Adds.take _).issue (dated (by rw [hc]; rfl) fun date h => by cases h)
  next w f url hc hr =>
    unfold App.addCompleted App.fetchBoard
    have written : s.app.Adds (a.Explains s) ((s.app.take p.ticket).issue (.setData w now url f)) :=
      (App.Adds.take _).issue (dated (by rw [hc]; rfl) fun date h => by cases h; rfl)
    have closed := (written.record (e := .closed w s.app.modal) trivial).dismiss
    exact (closed.issue fun t => plain rfl rfl t).showLoader _ _
  next documents hc hr =>
    refine (App.Adds.take p.ticket).trans (.note _ rfl ?_ rfl rfl)
    obtain ⟨reply, k⟩ := answer
    cases hr
    exact ⟨p, hp, documents, k, rfl, hc, ha, rfl⟩
  next screen f hc hr => exact (App.Adds.take _).objectDeleted _
  next screen uid documents hc hr =>
    unfold App.commentsReloaded
    split
    · split
      · refine (App.Adds.take p.ticket).trans (.note _ rfl ?_ rfl rfl)
        obtain ⟨reply, k⟩ := answer
        cases hr
        exact ⟨p, hp, uid, documents, k, rfl, hc, ha, rfl⟩
      · exact .take _
    · exact .take _
  next screen uid autoID comment hc => exact (App.Adds.take _).fetchComment _ fun t uid => plain rfl rfl t
  · exact .take _

/-- Every step but that of a service explains what it notes. -/
theorem act_adds {s s' : State} {a : Action} (hN : s.app.Named) (h : act s a = some s')
    (ha : ∀ t outcome, a ≠ .serve t outcome) : s.app.Adds (a.Explains s) s'.app := by
  have plain := @Action.explains_plain s a
  cases act_iff.mp h with
  | viewDidLoad | viewWillAppear | updateData => exact App.Adds.refl.issue (plain rfl rfl)
  | writing | back | swipeDown | deleteWord | cancelDelete | mainQueue | reloadTable =>
    exact .silent rfl (fun _ h => h) rfl
  | saveBoard title content uid url =>
    unfold App.saveBoard
    split
    · exact .refl
    · refine ((App.Adds.refl.showLoader _ true).record trivial).addContent (fun t => ⟨?_, ?_⟩) url
      · rintro date ⟨⟩
      · rintro w ⟨⟩
        exact uid.isUUID
  | @didSelectRow row shown =>
    unfold App.didSelectRow
    split
    next board _ =>
      have opened (a' : App) (hl : a'.log = s.app.log ++ [.opened row shown s.app.next])
        (hn : a'.net = s.app.net)
        (hu : a'.uid = s.app.uid) : s.app.Adds _ (a'.issue (.reloadComment s.app.next board.uid)) :=
        (App.Adds.note _ hl trivial hn hu).issue (plain rfl rfl)
      exact opened _ rfl rfl rfl
    · exact .silent rfl (fun _ h => h) rfl
  | confirmDelete =>
    unfold App.deleteConfirmed
    split
    · exact ((((App.Adds.refl.showLoader _ true).record trivial).issue (plain rfl rfl)).issue
        (plain rfl rfl)).dismiss
    · exact .refl
  | addComment =>
    unfold App.addComment
    split
    · exact .silent rfl (fun _ h => h) rfl
    · exact .refl
  | saveComment text now autoID =>
    refine (App.Adds.refl.issue fun t => ⟨?_, fun w h => by cases h⟩).dismiss
    rintro date ⟨⟩
    rfl
  | boardRow =>
    unfold App.cellForRowAt
    split
    all_goals exact .silent rfl (fun _ h => h) rfl
  | commentRow =>
    unfold App.commentRow
    repeat' split
    all_goals exact .silent rfl (fun _ h => h) rfl
  | serve outcome => exact absurd rfl (ha _ outcome)
  | searched web fileName hf hc =>
    refine (App.Adds.take _).imagesFetched web fileName fun t f d => ⟨?_, ?_⟩
    · rintro date ⟨⟩
    · rintro w ⟨⟩
      exact hN _ (App.find_mem hf).1 _ (by rw [hc]; rfl)
  | answer now hf hn => exact answered_adds hN (App.find_mem hf).1 hn rfl

/-- A service's step. -/
theorem act_serve {s s' : State} {t : Nat} {outcome : Outcome} (h : act s (.serve t outcome) = some s') :
    ∃ p ∈ s.app.net, ∃ r, p.answer = none ∧ p.call.request s.app.uid = some r ∧ s' = s.serve p r outcome := by
  cases act_iff.mp h with
  | serve _ hf ha hr => exact ⟨_, (App.find_mem hf).1, _, ha, hr, rfl⟩

/-- Any other step leaves the cloud as it is. -/
theorem act_cloud {s s' : State} {a : Action} (h : act s a = some s')
    (ha : ∀ t outcome, a ≠ .serve t outcome) :
    s'.cloud = s.cloud := by
  cases act_iff.mp h with
  | serve outcome => exact absurd rfl (ha _ outcome)
  | _ => rfl

/-- An answer that lists documents lists those of the query that was served. -/
theorem serve_reply {cloud : Cloud} {r : Request} {outcome : Outcome} {documents : List (Path × Dictionary)}
    (h : (cloud.serve r outcome).2 = .documents documents) : ∃ collection field descending,
      r = .getDocuments collection field descending ∧
      documents = getDocuments cloud.documents collection field descending := by
  cases outcome with
  | failure => cases r <;> cases h
  | success url =>
    cases r with
    | getDocuments collection field descending =>
      cases h
      exact ⟨collection, field, descending, rfl, rfl⟩
    | downloadURL p | deleteObject p =>
      simp only [Cloud.serve] at h
      split at h <;> cases h
    | _ => cases h

/-! ## A step, as the history sees it -/

theorem act_noted {s s' : State} {a : Action} (hN : s.app.Named) (h : act s a = some s') :
    ∃ events, s'.app.log = s.app.log ++ events ∧ (∀ e ∈ events, a.Explains s e) ∧ s'.app.uid = s.app.uid := by
  by_cases ha : ∃ t outcome, a = .serve t outcome
  · obtain ⟨t, outcome, rfl⟩ := ha
    obtain ⟨p, -, r, -, -, rfl⟩ := act_serve h
    exact ⟨[.served p.ticket p.call outcome], rfl, by simp [Action.Explains], rfl⟩
  · have hA := act_adds hN h fun t outcome e => ha ⟨t, outcome, e⟩
    obtain ⟨events, hl, hok⟩ := hA.log
    exact ⟨events, hl, hok, hA.uid⟩

/-- A call in flight was so before the step, or has just been sent, or has just been served. -/
theorem act_net {s s' : State} {a : Action} (hN : s.app.Named) (h : act s a = some s') {p : InFlight}
    (hp : p ∈ s'.app.net) :
    p ∈ s.app.net ∨ (p.answer = none ∧ .issued p.ticket p.call ∈ s'.app.log) ∨
      ∃ q ∈ s.app.net, p.ticket = q.ticket ∧ p.call = q.call ∧ ∀ documents k,
        p.answer = some ⟨.documents documents, k⟩ → ∃ collection field descending,
          q.call.request s.app.uid = some (.getDocuments collection field descending) ∧
            documents = getDocuments s.cloud.documents collection field descending := by
  by_cases ha : ∃ t outcome, a = .serve t outcome
  · obtain ⟨t, outcome, rfl⟩ := ha
    obtain ⟨q, hq, r, -, hr, rfl⟩ := act_serve h
    rcases List.mem_append.mp hp with hp | hp
    · exact .inl (List.mem_filter.mp hp).1
    · rw [List.mem_singleton.mp hp]
      refine .inr (.inr ⟨q, hq, rfl, rfl, fun documents k hd => ?_⟩)
      obtain ⟨collection, field, descending, rfl, hq⟩ :=
        serve_reply (congrArg Answer.reply (Option.some.inj hd))
      exact ⟨collection, field, descending, hr, hq⟩
  · rcases (act_adds hN h fun t outcome e => ha ⟨t, outcome, e⟩).net p hp with hp | hp
    · exact .inl hp
    · exact .inr (.inl hp)

/-- A document was there before the step, or is written by a call in flight. -/
theorem act_documents {s s' : State} {a : Action} (h : act s a = some s') {p : Path} {dictionary : Dictionary}
    (hl : s'.cloud.documents.lookup p = some dictionary) :
    s.cloud.documents.lookup p = some dictionary ∨
      ∃ q ∈ s.app.net, q.call.request s.app.uid = some (.setData p dictionary) := by
  by_cases ha : ∃ t outcome, a = .serve t outcome
  · obtain ⟨t, outcome, rfl⟩ := ha
    obtain ⟨q, hq, r, -, hr, rfl⟩ := act_serve h
    by_cases hd : r.document = some p
    · cases outcome with
      | failure => cases r <;> exact .inl hl
      | success url =>
        cases r with
        | setData p' dictionary' =>
          cases hd
          have hi : (s.cloud.documents.insert p dictionary').lookup p = some dictionary' :=
            AList.lookup_insert _
          cases hi.symm.trans hl
          exact .inr ⟨q, hq, hr⟩
        | deleteDocument p' =>
          cases hd
          have he : (s.cloud.documents.erase p).lookup p = none := AList.lookup_erase _ _
          cases he.symm.trans hl
        | _ => cases hd
    · exact .inl ((serve_documents s.cloud outcome hd).symm.trans hl)
  · rw [act_cloud h fun t outcome e => ha ⟨t, outcome, e⟩] at hl
    exact .inl hl

end BlindBoard
