import BlindBoard.Proof.CommentTable

/-!
# Lists that go back in time

A list shows the answer that was assigned to it last: what a query, served at some
moment of the run, found in the cloud then (`Fetched`). Nothing tags or cancels a
fetch, so the answer that arrives last is shown, whichever query it answers, and a word
that has just been saved can disappear again (`list_goes_back`). Where the answers for
a list arrive in the order in which their queries were served (`InOrder`), the list only
moves forward, and with no fetch outstanding it is the answer to the fetch that was
served last (`lists_forward`).
-/

namespace BlindBoard

open Lib

/-- A list on display: the word list, or the comments of a screen. -/
inductive Table where
  | board
  | comments (screen : Nat)
  deriving DecidableEq

/-- What a table lists. -/
abbrev Listing := List Word ⊕ List Comment

/-- The table that a query is for. -/
def Call.table : Call → Option Table
  | .loadData => some .board
  | .reloadComment screen _ => some (.comments screen)
  | _ => none

/-- The table that an event is about, if a query is served or its answer assigned. -/
def Event.table : Event → Option Table
  | .served _ call _ => call.table
  | .loaded _ _ _ => some .board
  | .reloaded screen _ _ _ => some (.comments screen)
  | _ => none

/-- What is assigned to the list of a table, and when its query was served. -/
def Event.shown (T : Table) : Event → Option (Nat × Listing)
  | .loaded _ k words => if T = .board then some (k, .inl words) else none
  | .reloaded screen _ k comments => if T = .comments screen then some (k, .inr comments) else none
  | _ => none

namespace App

/-- What a table has listed in turn, with the moments at which the queries were served. -/
def shown (a : App) (T : Table) : List (Nat × Listing) := a.log.filterMap (Event.shown T)

/-- What a table lists. -/
def listing (a : App) : Table → Option Listing
  | .board => some (.inl a.arr)
  | .comments screen => (a.details screen).map fun d => .inr d.arr

/-- The table's screen is on the navigation stack. -/
def OnStack (a : App) : Table → Prop
  | .board => True
  | .comments screen => a.pushed = some screen

end App

/-- What a query finds in the cloud. -/
def Call.documents (uid : Option UUID) (cloud : Cloud) : Call → List (Path × Dictionary)
  | .loadData => getDocuments cloud.documents (COLLECTION_BOARD uid) "writtenTime" true
  | .reloadComment _ word => getDocuments cloud.documents (commentCollection uid word) "commentMadeDate" false
  | _ => []

/-- The list that is made of the documents. -/
def Call.read (documents : List (Path × Dictionary)) : Call → Option Listing
  | .loadData => some (.inl (documents.map fun d => Word.ofDictionary d.2))
  | .reloadComment _ _ => some (.inr (documents.map fun d => Comment.ofDictionary d.2))
  | _ => none

/-- In the state `s'` of the run `as` from `s₀`, when the log had length `k`, the request
`t` of `call` is served without a failure. -/
def ServedIn (s₀ : State) (as : List Action) (t k : Nat) (call : Call) (s' : State) : Prop :=
  ∃ bs url, bs ++ [.serve t (.success url)] <+: as ∧ run step s₀ bs = some s' ∧
    s'.app.find t = some ⟨t, call, none⟩ ∧
    s'.app.log.length = k

/-- An answer for a table arrives before those whose queries were served later. -/
def InOrder (s : State) : Action → Prop
  | .answer ticket _ => ∀ p ∈ s.app.find ticket, ∀ a ∈ p.answer, p.call.table.isSome = true →
    ∀ q ∈ s.app.net, q.call.table = p.call.table → ∀ b ∈ q.answer, a.servedAt ≤ b.servedAt
  | _ => True

instance (s : State) : DecidablePred (InOrder s)
  | .answer ticket _ => inferInstanceAs (Decidable (∀ p ∈ s.app.find ticket, ∀ a ∈ p.answer,
    p.call.table.isSome = true → ∀ q ∈ s.app.net, q.call.table = p.call.table → ∀ b ∈ q.answer,
    a.servedAt ≤ b.servedAt))
  | .viewDidLoad | .viewWillAppear | .updateData | .writing | .saveBoard .. | .swipeDown | .boardRow _
  | .didSelectRow _ | .back | .deleteWord | .cancelDelete | .confirmDelete | .addComment | .saveComment ..
  | .commentRow .. | .reloadTable _ | .mainQueue | .serve .. | .searched .. => .isTrue trivial

theorem Event.table_of_shown {T : Table} {e : Event} {x : Nat × Listing} (h : e.shown T = some x) :
    e.table = some T := by
  cases e <;> simp only [shown, Option.ite_none_right_eq_some, reduceCtorEq] at h
  all_goals rw [h.1]; rfl

/-! ## Steps that do not concern a table -/

/-- From `a` to `a'` nothing happens to the list of `T` or to its queries. -/
structure App.Keeps (T : Table) (a a' : App) : Prop where
  listing : ∀ l, a.listing T = some l → a'.listing T = some l
  log : ∃ events, a'.log = a.log ++ events ∧ ∀ e ∈ events, e.table ≠ some T
  net : ∀ p : InFlight, p.answer.isSome = true → p.call.table = some T → (p ∈ a'.net ↔ p ∈ a.net)
  pushed : ∀ n, a'.pushed = some n → a.pushed = some n ∨ a.next ≤ n
  next : a.next ≤ a'.next

namespace App.Keeps

variable {T : Table} {a a' a'' : App}

theorem trans (h : a.Keeps T a') (h' : a'.Keeps T a'') : a.Keeps T a'' where
  listing l hl := h'.listing l (h.listing l hl)
  log := by
    obtain ⟨es, he, hT⟩ := h.log
    obtain ⟨es', he', hT'⟩ := h'.log
    refine ⟨es ++ es', by rw [he', he, List.append_assoc], fun e hm => ?_⟩
    exact (List.mem_append.mp hm).elim (hT e) (hT' e)
  net p ha hc := (h'.net p ha hc).trans (h.net p ha hc)
  pushed n hn := by
    rcases h'.pushed n hn with hn | hn
    · exact h.pushed n hn
    · exact .inr (h.next.trans hn)
  next := h.next.trans h'.next

theorem of_eq (harr : a'.arr = a.arr) (hd : a'.details = a.details) (hl : a'.log = a.log)
    (hn : a'.net = a.net)
    (hx : a.next ≤ a'.next) (hp : a'.pushed = a.pushed ∨ a'.pushed = none) : a.Keeps T a' where
  listing l h := by cases T <;> simpa [App.listing, harr, hd] using h
  log := ⟨[], by rw [hl, List.append_nil], by simp⟩
  net p _ _ := by rw [hn]
  pushed n h := by
    rcases hp with hp | hp <;> rw [hp] at h
    · exact .inl h
    · cases h
  next := hx

theorem refl : a.Keeps T a := of_eq rfl rfl rfl rfl le_rfl (.inl rfl)

theorem record (h : a.Keeps T a') {e : Event} (he : e.table ≠ some T) : a.Keeps T (a'.record e) :=
  h.trans ⟨fun l hl => by cases T <;> exact hl, ⟨[e], rfl, by simpa using he⟩,
    fun _ _ _ => Iff.rfl, fun _ => .inl, le_rfl⟩

theorem issue (h : a.Keeps T a') (call : Call) : a.Keeps T (a'.issue call) := by
  refine h.trans ⟨fun l hl => by cases T <;> exact hl, ⟨_, rfl, by simp [Event.table]⟩,
    fun p ha _ => ?_, fun _ => .inl,
    Nat.le_succ _⟩
  refine ⟨fun hp => (List.mem_append.mp hp).resolve_right fun hp => ?_, List.mem_append_left _⟩
  rw [List.mem_singleton.mp hp] at ha
  cases ha

theorem showLoader (h : a.Keeps T a') (v : View) (b : Bool) : a.Keeps T (a'.showLoader v b) := by
  obtain ⟨hud, hh⟩ := a'.showLoader_hud v b
  rw [hh]
  exact h.trans (of_eq rfl rfl rfl rfl le_rfl (.inl rfl))

theorem dismiss (h : a.Keeps T a') : a.Keeps T a'.dismiss := h.trans (of_eq rfl rfl rfl rfl le_rfl (.inl rfl))

/-- A call that is not a query for the table is answered. -/
theorem take {s : State} (ht : Tickets s) {p : InFlight} (hp : p ∈ s.app.net) (hT : p.call.table ≠ some T) :
    s.app.Keeps T (s.app.take p.ticket) where
  listing l h := by cases T <;> exact h
  log := ⟨[], (List.append_nil _).symm, by simp⟩
  net q _ hc := by
    refine ⟨fun hq => (List.mem_filter.mp hq).1, fun hq => List.mem_filter.mpr ⟨hq, ?_⟩⟩
    simp only [ne_eq, decide_eq_true_eq]
    exact fun he => hT (ht.eq p hp q hq he.symm ▸ hc)
  pushed _ := .inl
  next := le_rfl

theorem boardLoaded (ticket servedAt : Nat) (documents : List (Path × Dictionary)) (h : T ≠ .board) :
    a.Keeps T (a.boardLoaded ticket servedAt documents) where
  listing l hl := by
    cases T with
    | board => exact absurd rfl h
    | comments => exact hl
  log := ⟨_, rfl, by simpa [Event.table] using h.symm⟩
  net _ _ _ := Iff.rfl
  pushed _ := .inl
  next := le_rfl

theorem commentsReloaded (screen ticket servedAt : Nat) (documents : List (Path × Dictionary))
    (h : T ≠ .comments screen) : a.Keeps T (a.commentsReloaded screen ticket servedAt documents) := by
  unfold App.commentsReloaded
  split
  · split
    · refine ⟨fun l hl => ?_, ⟨_, rfl, by simpa [Event.table] using h.symm⟩,
        fun _ _ _ => Iff.rfl, fun _ => .inl, le_rfl⟩
      cases T with
      | board => exact hl
      | comments n =>
        simp only [App.listing]
        rw [Function.update_of_ne fun e => h (by rw [e])]
        exact hl
    · exact refl
  · exact refl

theorem reloadTable (screen : Nat) (mainQueue : List Nat) :
    a.Keeps T { a.reloadTable screen with mainQueue } where
  listing l h := by
    cases T with
    | board => exact h
    | comments n =>
      by_cases hn : n = screen
      · subst hn
        simpa [App.listing, App.reloadTable, Function.comp_def, Detail.reloadData] using h
      · simpa [App.listing, App.reloadTable, Function.update_of_ne hn] using h
  log := ⟨[], (List.append_nil _).symm, by simp⟩
  net _ _ _ := Iff.rfl
  pushed _ := .inl
  next := le_rfl

theorem addContent (h : a.Keeps T a') (w : Word) (url : Bool) : a.Keeps T (a'.addContent w url) := by
  cases url
  · exact h
  · exact h.issue _

theorem saveBoard (sheet : Nat) (title content : Option String) (uid : UUID) (url : Bool) :
    a.Keeps T (a.saveBoard sheet title content uid url) := by
  unfold App.saveBoard
  split
  · exact refl
  · exact ((refl.showLoader _ true).record (by simp [Event.table])).addContent _ url

theorem imagesFetched (w : Word) (web : Web) (fileName : UUID) :
    a.Keeps T (a.imagesFetched w web fileName) := by
  unfold App.imagesFetched App.imageUpload
  split
  · split
    · exact refl.showLoader _ false
    · split
      · exact refl.issue _
      · exact refl
  · exact refl

theorem addCompleted (w : Word) (imageUrl fileName now : String) :
    a.Keeps T (a.addCompleted w imageUrl fileName now) :=
  ((((refl.issue _).record (by simp [Event.table])).dismiss).issue _).showLoader .board false

theorem didSelectRow (row : Nat) (shown : Word) (h : a.details a.next = none) :
    a.Keeps T (a.didSelectRow row shown) := by
  unfold App.didSelectRow
  split
  next board _ =>
    let a' : App :=
      { a with
        details := Function.update a.details a.next (some ⟨board, [], 0⟩), pushed := some a.next
        next := a.next + 1, log := a.log ++ [.opened row shown a.next] }
    have opened : a.Keeps T a' := by
      refine ⟨fun l hl => ?_, ⟨[.opened row shown a.next], rfl, by simp [Event.table]⟩,
        fun _ _ _ => Iff.rfl, ?_,
        Nat.le_succ _⟩
      · cases T with
        | board => exact hl
        | comments n =>
          have hn : n ≠ a.next := fun e => by simp [App.listing, e, h] at hl
          simpa [a', App.listing, Function.update_of_ne hn] using hl
      · rintro n ⟨⟩
        exact .inr le_rfl
    exact opened.issue _
  · exact of_eq rfl rfl rfl rfl le_rfl (.inl rfl)

theorem deleteConfirmed (screen : Nat) : a.Keeps T (a.deleteConfirmed screen) := by
  unfold App.deleteConfirmed
  split
  · exact ((((refl.showLoader _ true).record (by simp [Event.table])).issue _).issue _).dismiss
  · exact refl

theorem fetchComment (screen : Nat) : a.Keeps T (a.fetchComment screen) := by
  unfold App.fetchComment
  split
  · exact refl.issue _
  · exact refl

theorem cellForRowAt (row : Nat) : a.Keeps T (a.cellForRowAt row) := by
  unfold App.cellForRowAt
  split
  · exact refl
  · exact of_eq rfl rfl rfl rfl le_rfl (.inl rfl)

theorem commentRow (screen row : Nat) (select : Bool) : a.Keeps T (a.commentRow screen row select) := by
  unfold App.commentRow
  repeat' split
  all_goals exact of_eq rfl rfl rfl rfl le_rfl (.inl rfl)

theorem addComment (screen : Nat) : a.Keeps T (a.addComment screen) := by
  unfold App.addComment
  split
  · exact of_eq rfl rfl rfl rfl (Nat.le_succ _) (.inl rfl)
  · exact refl

theorem answered (ticket : Nat) (call : Call) (answer : Answer) (now : String) (h : call.table ≠ some T) :
    a.Keeps T (a.answered ticket call answer now) := by
  unfold App.answered
  split
  · exact refl.issue _
  · exact addCompleted ..
  · exact boardLoaded _ _ _ fun e => h (by rw [e]; rfl)
  · rw [objectDeleted_eq]
    exact of_eq rfl rfl rfl rfl le_rfl (by split <;> simp)
  · exact commentsReloaded _ _ _ _ fun e => h (by rw [e]; rfl)
  · exact fetchComment _
  · exact refl

end App.Keeps

/-- The query for a table is served or answered by a step. -/
def Action.about (s : State) (T : Table) : Action → Prop
  | .serve ticket _ | .answer ticket _ => ∃ p, s.app.find ticket = some p ∧ p.call.table = some T
  | _ => False

theorem act_keeps {s s' : State} {a : Action} {T : Table} (hS : Screens s)
    (ht : Tickets s) (h : act s a = some s')
    (ha : ¬ a.about s T) : s.app.Keeps T s'.app := by
  cases act_iff.mp h with
  | viewDidLoad | viewWillAppear | updateData => exact App.Keeps.refl.issue _
  | writing => exact .of_eq rfl rfl rfl rfl (Nat.le_succ _) (.inl rfl)
  | back => exact .of_eq rfl rfl rfl rfl le_rfl (.inr rfl)
  | swipeDown | deleteWord | cancelDelete => exact .of_eq rfl rfl rfl rfl le_rfl (.inl rfl)
  | saveBoard => exact .saveBoard ..
  | didSelectRow =>
    refine .didSelectRow _ _ ?_
    by_contra hn
    obtain ⟨d, hd⟩ := Option.ne_none_iff_exists'.mp hn
    exact lt_irrefl _ (hS.below _ d hd)
  | confirmDelete => exact .deleteConfirmed _
  | addComment => exact .addComment _
  | saveComment => exact (App.Keeps.refl.issue _).dismiss
  | boardRow => exact .cellForRowAt _
  | commentRow => exact .commentRow ..
  | reloadTable => exact .reloadTable _ s.app.mainQueue
  | mainQueue => exact .reloadTable _ _
  | @serve p r outcome hf hn hr =>
    have hT : p.call.table ≠ some T := fun hT => ha ⟨p, hf, hT⟩
    refine (App.Keeps.take ht (App.find_mem hf).1 hT).trans ⟨fun l hl => by cases T <;> exact hl,
      ⟨_, rfl, by simpa [Event.table] using hT⟩, fun q hq hc => ?_, fun _ => .inl, le_rfl⟩
    refine ⟨fun h => (List.mem_append.mp h).resolve_right fun h => hT ?_, List.mem_append_left _⟩
    rwa [List.mem_singleton.mp h] at hc
  | searched web fileName hf hc =>
    exact (App.Keeps.take ht (App.find_mem hf).1 (by simp [hc, Call.table])).trans (.imagesFetched ..)
  | @answer p answer now hf hn =>
    have hT : p.call.table ≠ some T := fun hT => ha ⟨p, hf, hT⟩
    exact (App.Keeps.take ht (App.find_mem hf).1 hT).trans (.answered _ _ _ _ hT)

/-! ## Lists that only move forward -/

section Keeps

variable {T : Table} {a a' : App} (h : a.Keeps T a')
include h

theorem App.Keeps.shown_eq : a'.shown T = a.shown T := by
  obtain ⟨events, he, hT⟩ := h.log
  have hnil : events.filterMap (Event.shown T) = [] := by
    rw [List.filterMap_eq_nil_iff]
    intro e hm
    by_contra hs
    obtain ⟨x, hx⟩ := Option.ne_none_iff_exists'.mp hs
    exact hT e hm (Event.table_of_shown hx)
  rw [App.shown, App.shown, he, List.filterMap_append, hnil, List.append_nil]

theorem App.Keeps.getElem?_log {k : Nat} {e : Event} (he : a.log[k]? = some e) : a'.log[k]? = some e := by
  obtain ⟨events, hl, -⟩ := h.log
  rw [hl, List.getElem?_append_left (List.getElem?_eq_some_iff.mp he).1, he]

theorem App.Keeps.of_mem_log {e : Event} (he : e ∈ a'.log) (hT : e.table = some T) : e ∈ a.log := by
  obtain ⟨events, hl, hn⟩ := h.log
  rw [hl] at he
  exact (List.mem_append.mp he).resolve_right fun he => hn e he hT

theorem App.Keeps.of_getElem?_log {k : Nat} {e : Event} (he : a'.log[k]? = some e) (hT : e.table = some T) :
    a.log[k]? = some e := by
  obtain ⟨events, hl, hn⟩ := h.log
  rw [hl, List.getElem?_append] at he
  split at he
  · exact he
  · exact absurd hT (hn e (List.mem_of_getElem? he))

end Keeps

/-- A query for the table was served when the log had length `k`. -/
def App.Served (a : App) (T : Table) (k : Nat) (outcome : Outcome) : Prop :=
  ∃ t call, a.log[k]? = some (.served t call outcome) ∧ call.table = some T

/-- The list of the table has only moved forward. -/
structure Forward (s : State) (T : Table) : Prop where
  sorted : ((s.app.shown T).map Prod.fst).Pairwise (· ≤ ·)
  queries : ∀ x ∈ s.app.shown T, ∃ o, s.app.Served T x.1 o
  answers : ∀ p ∈ s.app.net, p.call.table = some T → ∀ a, p.answer = some a →
    ∃ o, s.app.log[a.servedAt]? = some (.served p.ticket p.call o) ∧
      (o = .failure ∨ ∃ documents, a.reply = .documents documents)
  ahead : ∀ p ∈ s.app.net, p.call.table = some T → ∀ a, p.answer = some a → ∀ x ∈ s.app.shown T,
    x.1 ≤ a.servedAt
  delivered : s.app.OnStack T → ∀ k url, s.app.Served T k (.success url) → (∃ x ∈ s.app.shown T, x.1 = k) ∨
    ∃ p ∈ s.app.net, p.call.table = some T ∧ ∃ a, p.answer = some a ∧ a.servedAt = k
  known : ∀ n, T = .comments n → ∀ e ∈ s.app.log, e.table = some T → n < s.app.next

namespace Forward

variable {s s' : State} {T : Table}

theorem start (h : Start s) : Forward s T := by
  constructor <;> rw [h.launch] <;> simp [App.launch, App.shown, App.Served]

theorem keep (h : Forward s T) (hk : s.app.Keeps T s'.app) : Forward s' T := by
  have served {k : Nat} {o : Outcome} : s'.app.Served T k o ↔ s.app.Served T k o := by
    constructor
    · rintro ⟨t, call, hl, hc⟩
      exact ⟨t, call, hk.of_getElem?_log hl hc, hc⟩
    · rintro ⟨t, call, hl, hc⟩
      exact ⟨t, call, hk.getElem?_log hl, hc⟩
  have net {p : InFlight} (hp : p ∈ s'.app.net) (hc : p.call.table = some T) {a : Answer}
    (ha : p.answer = some a) :
      p ∈ s.app.net := (hk.net p (by rw [ha]; rfl) hc).mp hp
  constructor
  case sorted =>
    rw [hk.shown_eq]
    exact h.sorted
  case queries =>
    rw [hk.shown_eq]
    intro x hx
    obtain ⟨o, ho⟩ := h.queries x hx
    exact ⟨o, served.mpr ho⟩
  case answers =>
    intro p hp hc a ha
    obtain ⟨o, ho, hr⟩ := h.answers p (net hp hc ha) hc a ha
    exact ⟨o, hk.getElem?_log ho, hr⟩
  case ahead =>
    rw [hk.shown_eq]
    exact fun p hp hc a ha => h.ahead p (net hp hc ha) hc a ha
  case delivered =>
    intro hs k url hsv
    rw [hk.shown_eq]
    have hsv := served.mp hsv
    have hs₀ : s.app.OnStack T := by
      cases T with
      | board => trivial
      | comments n =>
        rcases hk.pushed n hs with hp | hn
        · exact hp
        · obtain ⟨t, call, hl, hc⟩ := hsv
          exact absurd (h.known n rfl _ (List.mem_of_getElem? hl) hc) hn.not_gt
    rcases h.delivered hs₀ k url hsv with hx | ⟨p, hp, hc, a, ha, hk'⟩
    · exact .inl hx
    · exact .inr ⟨p, (hk.net p (by rw [ha]; rfl) hc).mpr hp, hc, a, ha, hk'⟩
  case known =>
    intro n hn e he hT
    exact (h.known n hn e (hk.of_mem_log he hT) hT).trans_le hk.next

/-- A query for the table is served. -/
theorem serve (h : Forward s T) (hS : Screens s) (ht : Tickets s) {p : InFlight} (hp : p ∈ s.app.net)
    (hn : p.answer = none) (hc : p.call.table = some T) {r : Request} (hr : p.call.request s.app.uid = some r)
    (outcome : Outcome) : Forward (s.serve p r outcome) T := by
  have hshown : (s.serve p r outcome).app.shown T = s.app.shown T := by
    simp [State.serve, App.shown, Event.shown]
  have old {k : Nat} {e : Event} (he : s.app.log[k]? = some e) :
    (s.serve p r outcome).app.log[k]? = some e := by
    rw [State.serve, List.getElem?_append_left (List.getElem?_eq_some_iff.mp he).1, he]
  have last : (s.serve p r outcome).app.log[s.app.log.length]? = some (.served p.ticket p.call outcome) := by
    simp [State.serve]
  have net {q : InFlight} (hq : q ∈ (s.serve p r outcome).app.net) : q ∈ s.app.net ∨
      q = ⟨p.ticket, p.call, some ⟨(s.cloud.serve r outcome).2, s.app.log.length⟩⟩ := by
    rcases List.mem_append.mp hq with hq | hq
    · exact .inl (List.mem_filter.mp hq).1
    · exact .inr (List.mem_singleton.mp hq)
  constructor
  case sorted =>
    rw [hshown]
    exact h.sorted
  case queries =>
    rw [hshown]
    intro x hx
    obtain ⟨o, t, call, hl, hct⟩ := h.queries x hx
    exact ⟨o, t, call, old hl, hct⟩
  case answers =>
    intro q hq hcq a ha
    rcases net hq with hq | rfl
    · obtain ⟨o, ho, hd⟩ := h.answers q hq hcq a ha
      exact ⟨o, old ho, hd⟩
    · cases ha
      refine ⟨outcome, last, ?_⟩
      cases outcome with
      | failure => exact .inl rfl
      | success url =>
        obtain ⟨t, call, answer⟩ := p
        cases call <;> simp only [Call.table, reduceCtorEq] at hc <;> cases hr <;> exact .inr ⟨_, rfl⟩
  case ahead =>
    rw [hshown]
    intro q hq hcq a ha x hx
    rcases net hq with hq | rfl
    · exact h.ahead q hq hcq a ha x hx
    · cases ha
      obtain ⟨o, t, call, hl, -⟩ := h.queries x hx
      exact (List.getElem?_eq_some_iff.mp hl).1.le
  case delivered =>
    intro hs k url hsv
    rw [hshown]
    obtain ⟨t, call, hl, hct⟩ := hsv
    rw [State.serve, List.getElem?_append] at hl
    split at hl
    · have hs₀ : s.app.OnStack T := by cases T <;> exact hs
      rcases h.delivered hs₀ k url ⟨t, call, hl, hct⟩ with hx | ⟨q, hq, hcq, a, ha, hk⟩
      · exact .inl hx
      · refine .inr ⟨q, List.mem_append_left _ (List.mem_filter.mpr ⟨hq, ?_⟩), hcq, a, ha, hk⟩
        simp only [ne_eq, decide_eq_true_eq]
        intro he
        rw [ht.eq q hq p hp he, hn] at ha
        cases ha
    next hlt =>
      have hk : k = s.app.log.length := by
        have := (List.getElem?_eq_some_iff.mp hl).1
        simp only [List.length_singleton] at this
        omega
      exact .inr ⟨_, List.mem_append_right _ (List.mem_singleton_self _), hc, _, rfl, hk.symm⟩
  case known =>
    intro n hT e he hTe
    rcases List.mem_append.mp he with he | he
    · exact h.known n hT e he hTe
    · have hA := hS.calls p hp
      obtain ⟨t, call, answer⟩ := p
      subst hT
      cases call <;> simp only [Call.table, Option.some.injEq, reduceCtorEq, Table.comments.injEq] at hc
      subst hc
      obtain ⟨w, ⟨d, hd, -⟩, -⟩ := hA rfl
      exact hS.below _ d hd

/-- An answer for the table is assigned to its list. -/
theorem assign (h : Forward s T) (ht : Tickets s) {p : InFlight} (hp : p ∈ s.app.net)
    (hc : p.call.table = some T)
    {a : Answer} (ha : p.answer = some a)
    (ho : ∀ q ∈ s.app.net, q.call.table = some T → ∀ b, q.answer = some b →
      a.servedAt ≤ b.servedAt) {e : Event}
    {l : Listing} (he : e.shown T = some (a.servedAt, l)) (hlog : s'.app.log = s.app.log ++ [e])
    (hnet : s'.app.net = (s.app.take p.ticket).net) (hl : s'.app.listing T = some l)
    (hpushed : s'.app.pushed = s.app.pushed) (hnext : s'.app.next = s.app.next) : Forward s' T := by
  have hshown : s'.app.shown T = s.app.shown T ++ [(a.servedAt, l)] := by
    rw [App.shown, hlog, List.filterMap_append, App.shown]
    simp [he]
  have old {k : Nat} {e : Event} (he : s.app.log[k]? = some e) : s'.app.log[k]? = some e := by
    rw [hlog, List.getElem?_append_left (List.getElem?_eq_some_iff.mp he).1, he]
  have net {q : InFlight} (hq : q ∈ s'.app.net) : q ∈ s.app.net := by
    rw [hnet] at hq
    exact (List.mem_filter.mp hq).1
  have hmem {x : Nat × Listing} : x ∈ s'.app.shown T ↔ x ∈ s.app.shown T ∨ x = (a.servedAt, l) := by
    rw [hshown, List.mem_append, List.mem_singleton]
  constructor
  case sorted =>
    rw [hshown, List.map_append, List.pairwise_append]
    refine ⟨h.sorted, List.pairwise_singleton _ _, fun j hj k hk => ?_⟩
    obtain ⟨x, hx, rfl⟩ := List.mem_map.mp hj
    rw [List.mem_singleton.mp hk]
    exact h.ahead p hp hc a ha x hx
  case queries =>
    intro x hx
    rcases hmem.mp hx with hx | rfl
    · obtain ⟨o, t, call, hl, hct⟩ := h.queries x hx
      exact ⟨o, t, call, old hl, hct⟩
    · obtain ⟨o, hlo, -⟩ := h.answers p hp hc a ha
      exact ⟨o, _, _, old hlo, hc⟩
  case answers =>
    intro q hq hcq b hb
    obtain ⟨o, hlo, hr⟩ := h.answers q (net hq) hcq b hb
    exact ⟨o, old hlo, hr⟩
  case ahead =>
    intro q hq hcq b hb x hx
    rcases hmem.mp hx with hx | rfl
    · exact h.ahead q (net hq) hcq b hb x hx
    · exact ho q (net hq) hcq b hb
  case delivered =>
    rintro hs k url ⟨t, call, hlk, hct⟩
    have hs₀ : s.app.OnStack T := by
      cases T with
      | board => trivial
      | comments => exact hpushed.symm.trans hs
    have hlk₀ : s.app.log[k]? = some (.served t call (.success url)) := by
      rw [hlog, List.getElem?_append] at hlk
      split at hlk
      · exact hlk
      · cases List.mem_singleton.mp (List.mem_of_getElem? hlk)
        cases he
    rcases h.delivered hs₀ k url ⟨t, call, hlk₀, hct⟩ with ⟨x, hx, rfl⟩ | ⟨q, hq, hcq, b, hb, rfl⟩
    · exact .inl ⟨x, hmem.mpr (.inl hx), rfl⟩
    · by_cases hqp : q.ticket = p.ticket
      · rw [ht.eq q hq p hp hqp, ha] at hb
        cases hb
        exact .inl ⟨_, hmem.mpr (.inr rfl), rfl⟩
      · refine .inr ⟨q, ?_, hcq, b, hb, rfl⟩
        rw [hnet]
        exact List.mem_filter.mpr ⟨hq, by simpa using hqp⟩
  case known =>
    intro n hT e' he' hTe
    rw [hnext]
    rw [hlog] at he'
    rcases List.mem_append.mp he' with he' | he'
    · exact h.known n hT e' he' hTe
    · obtain ⟨o, hlo, -⟩ := h.answers p hp hc a ha
      exact h.known n hT _ (List.mem_of_getElem? hlo) hc

/-- An answer for the table is dropped: the query has failed, or the screen is gone. -/
theorem drop (h : Forward s T) (ht : Tickets s) {p : InFlight} (hp : p ∈ s.app.net) {a : Answer}
    (ha : p.answer = some a) (hc : p.call.table = some T)
    (hd : s.app.OnStack T → ∀ documents, a.reply ≠ .documents documents) :
    Forward { s with app := s.app.take p.ticket } T where
  sorted := h.sorted
  queries := h.queries
  answers q hq := h.answers q (List.mem_filter.mp hq).1
  ahead q hq := h.ahead q (List.mem_filter.mp hq).1
  delivered hs k url hsv := by
    have hs₀ : s.app.OnStack T := by cases T <;> exact hs
    rcases h.delivered hs₀ k url hsv with hx | ⟨q, hq, hcq, b, hb, rfl⟩
    · exact .inl hx
    · refine .inr ⟨q, List.mem_filter.mpr ⟨hq, ?_⟩, hcq, b, hb, rfl⟩
      simp only [ne_eq, decide_eq_true_eq]
      intro he
      obtain rfl := ht.eq q hq p hp he
      cases ha.symm.trans hb
      obtain ⟨o, hlo, hr⟩ := h.answers q hq hc a ha
      obtain ⟨t, call, hlk, -⟩ := hsv
      cases hlo.symm.trans hlk
      rcases hr with hr | ⟨documents, hr⟩
      · cases hr
      · exact hd hs₀ documents hr
  known := h.known

/-- The answer to a query for the table arrives in its turn. -/
theorem answered (h : Forward s T) (hS : Screens s) (ht : Tickets s) {p : InFlight} (hp : p ∈ s.app.net)
    (hc : p.call.table = some T) {a : Answer} (ha : p.answer = some a)
    (ho : ∀ q ∈ s.app.net, q.call.table = some T → ∀ b, q.answer = some b → a.servedAt ≤ b.servedAt)
    (now : String) :
    Forward { s with app := (s.app.take p.ticket).answered p.ticket p.call a now } T := by
  obtain ⟨reply, k⟩ := a
  by_cases hr : ∃ documents, reply = .documents documents
  · obtain ⟨documents, rfl⟩ := hr
    obtain ⟨t, call, answer⟩ := p
    cases call <;> simp only [Call.table, Option.some.injEq, reduceCtorEq] at hc <;> subst hc
    case loadData =>
      exact h.assign ht hp rfl ha ho (l := .inl (documents.map fun d => Word.ofDictionary d.2))
        (by simp [Event.shown])
        rfl rfl rfl rfl rfl
    case reloadComment screen uid =>
      obtain ⟨w, ⟨d, hd, -⟩, -⟩ := hS.calls _ hp rfl
      have hd : (s.app.take t).details screen = some d := hd
      by_cases hl : (s.app.take t).alive screen = true
      · simp only [App.answered, App.commentsReloaded, hd, if_pos hl]
        exact h.assign ht hp rfl ha ho (l := .inr (documents.map fun d => Comment.ofDictionary d.2))
          (by simp [Event.shown]) rfl rfl (by simp [App.listing]) rfl rfl
      · simp only [App.answered, App.commentsReloaded, hd, if_neg hl]
        refine h.drop ht hp ha rfl fun hs => absurd ?_ hl
        have hs : (s.app.take t).pushed = some screen := hs
        simp [App.alive, hs]
  · have hdrop := h.drop ht hp ha hc fun _ documents hd => hr ⟨documents, hd⟩
    obtain ⟨t, call, answer⟩ := p
    cases call <;> simp only [Call.table, reduceCtorEq] at hc <;> cases reply <;>
      first | exact hdrop | exact absurd ⟨_, rfl⟩ hr

theorem step (h : Forward s T) (hS : Screens s) (ht : Tickets s) {a : Action} (ho : InOrder s a)
    (hs : step s a = some s') : Forward s' T := by
  have hs := act_of_step hs
  by_cases ha : a.about s T
  · cases act_iff.mp hs with
    | @serve p r outcome hf hn hr =>
      obtain ⟨q, hq, hc⟩ := ha
      cases hf.symm.trans hq
      exact h.serve hS ht (App.find_mem hf).1 hn hc hr outcome
    | @answer p answer now hf hn =>
      obtain ⟨q, hq, hc⟩ := ha
      cases hf.symm.trans hq
      refine h.answered hS ht (App.find_mem hf).1 hc hn (fun q hq hcq b hb => ?_) now
      exact ho p hf answer hn (by rw [hc]; rfl) q hq (hcq.trans hc.symm) b hb
    | _ => exact ha.elim
  · exact h.keep (act_keeps hS ht hs ha)

end Forward

/-! ## Lists and the cloud they are from -/

theorem ServedIn.append {s₀ s' : State} {as : List Action} {t k : Nat}
    {call : Call} (h : ServedIn s₀ as t k call s')
    (bs : List Action) : ServedIn s₀ (as ++ bs) t k call s' := by
  obtain ⟨cs, url, hp, h⟩ := h
  exact ⟨cs, url, hp.trans (List.prefix_append as bs), h⟩

/-- A list is what was assigned to it last, and that is what a query found in the cloud
when it was served. -/
structure Fetched (s₀ : State) (as : List Action) (s : State) (T : Table) : Prop where
  last : ∀ x ∈ (s.app.shown T).getLast?, s.app.listing T = some x.2
  shown : ∀ x ∈ s.app.shown T, ∃ t call s', ServedIn s₀ as t x.1 call s' ∧ call.table = some T ∧
    call.read (call.documents s'.app.uid s'.cloud) = some x.2
  answers : ∀ p ∈ s.app.net, p.call.table = some T → ∀ documents k,
  p.answer = some ⟨.documents documents, k⟩ →
    ∃ s', ServedIn s₀ as p.ticket k p.call s' ∧ documents = p.call.documents s'.app.uid s'.cloud

namespace Fetched

variable {s₀ s s' : State} {as : List Action} {T : Table}

theorem start (h : Start s) : Fetched s [] s T := by
  constructor <;> rw [h.launch] <;> simp [App.launch, App.shown]

theorem keep (h : Fetched s₀ as s T) (hk : s.app.Keeps T s'.app) (a : Action) :
    Fetched s₀ (as ++ [a]) s' T where
  last := by
    rw [hk.shown_eq]
    exact fun x hx => hk.listing _ (h.last x hx)
  shown := by
    rw [hk.shown_eq]
    intro x hx
    obtain ⟨t, call, s₁, hs, hc⟩ := h.shown x hx
    exact ⟨t, call, s₁, hs.append [a], hc⟩
  answers p hp hc documents k ha := by
    have hp' : p ∈ s.app.net := (hk.net p (by rw [ha]; rfl) hc).mp hp
    obtain ⟨s₁, hs, hd⟩ := h.answers p hp' hc documents k ha
    exact ⟨s₁, hs.append [a], hd⟩

/-- A query finds what it is to find. -/
theorem serve_documents_eq {p : InFlight} {r : Request} (hc : p.call.table = some T)
    (hr : p.call.request s.app.uid = some r) {outcome : Outcome} {documents : List (Path × Dictionary)}
    (h : (s.cloud.serve r outcome).2 = .documents documents) :
    (∃ url, outcome = .success url) ∧ documents = p.call.documents s.app.uid s.cloud := by
  cases outcome with
  | failure =>
    have hf : (s.cloud.serve r .failure).2 = .failed := by cases r <;> rfl
    rw [hf] at h
    cases h
  | success url =>
    refine ⟨⟨url, rfl⟩, ?_⟩
    generalize p.call = call at hc hr
    cases call with
    | loadData | reloadComment =>
      cases hr
      cases h
      rfl
    | _ => cases hc

/-- A query for the table is served. -/
theorem serve (h : Fetched s₀ as s T) (hrun : run step s₀ as = some s) {p : InFlight}
    (hf : s.app.find p.ticket = some p) (hn : p.answer = none) (hc : p.call.table = some T) {r : Request}
    (hr : p.call.request s.app.uid = some r) (outcome : Outcome) :
    Fetched s₀ (as ++ [.serve p.ticket outcome]) (s.serve p r outcome) T where
  last := by
    have hshown : (s.serve p r outcome).app.shown T = s.app.shown T := by
      simp [State.serve, App.shown, Event.shown]
    rw [hshown]
    exact fun x hx => by cases T <;> exact h.last x hx
  shown := by
    have hshown : (s.serve p r outcome).app.shown T = s.app.shown T := by
      simp [State.serve, App.shown, Event.shown]
    rw [hshown]
    intro x hx
    obtain ⟨t, call, s₁, hs, hc⟩ := h.shown x hx
    exact ⟨t, call, s₁, hs.append _, hc⟩
  answers q hq hcq documents k ha := by
    rcases List.mem_append.mp hq with hq | hq
    · obtain ⟨s₁, hs, hd⟩ := h.answers q (App.mem_take hq) hcq documents k ha
      exact ⟨s₁, hs.append _, hd⟩
    · obtain rfl := List.mem_singleton.mp hq
      obtain ⟨hreply, rfl⟩ := Answer.mk.inj (Option.some.inj ha)
      obtain ⟨⟨url, rfl⟩, hd⟩ := serve_documents_eq hc hr hreply
      refine ⟨s, ⟨as, url, List.prefix_rfl, hrun, ?_, rfl⟩, hd⟩
      rw [hf, ← hn]

/-- An answer for the table is assigned to its list. -/
theorem assign (h : Fetched s₀ as s T) {p : InFlight} (hp : p ∈ s.app.net) (hc : p.call.table = some T)
    {documents : List (Path × Dictionary)} {k : Nat}
    (ha : p.answer = some ⟨.documents documents, k⟩) {e : Event}
    {l : Listing} (he : e.shown T = some (k, l)) (hread : p.call.read documents = some l)
    (hlog : s'.app.log = s.app.log ++ [e]) (hnet : s'.app.net = (s.app.take p.ticket).net)
    (hl : s'.app.listing T = some l) (a : Action) : Fetched s₀ (as ++ [a]) s' T := by
  have hshown : s'.app.shown T = s.app.shown T ++ [(k, l)] := by
    rw [App.shown, hlog, List.filterMap_append, App.shown]
    simp [he]
  refine ⟨?_, fun x hx => ?_, fun q hq hcq documents' k' ha' => ?_⟩
  · rw [hshown, List.getLast?_concat]
    rintro x ⟨⟩
    exact hl
  · rw [hshown] at hx
    rcases List.mem_append.mp hx with hx | hx
    · obtain ⟨t, call, s₁, hs, hc⟩ := h.shown x hx
      exact ⟨t, call, s₁, hs.append [a], hc⟩
    · obtain rfl := List.mem_singleton.mp hx
      obtain ⟨s₁, hs, hd⟩ := h.answers p hp hc documents k ha
      exact ⟨p.ticket, p.call, s₁, hs.append [a], hc, hd ▸ hread⟩
  · rw [hnet] at hq
    obtain ⟨s₁, hs, hd⟩ := h.answers q (App.mem_take hq) hcq documents' k' ha'
    exact ⟨s₁, hs.append [a], hd⟩

/-- An answer for the table is dropped. -/
theorem drop (h : Fetched s₀ as s T) (p : InFlight) (a : Action) :
    Fetched s₀ (as ++ [a]) { s with app := s.app.take p.ticket } T where
  last x hx := by cases T <;> exact h.last x hx
  shown x hx := by
    obtain ⟨t, call, s₁, hs, hc⟩ := h.shown x hx
    exact ⟨t, call, s₁, hs.append [a], hc⟩
  answers q hq hcq documents k ha := by
    obtain ⟨s₁, hs, hd⟩ := h.answers q (App.mem_take hq) hcq documents k ha
    exact ⟨s₁, hs.append [a], hd⟩

/-- The answer to a query for the table arrives. -/
theorem answered (h : Fetched s₀ as s T) (hS : Screens s) {p : InFlight} (hp : p ∈ s.app.net)
    (hc : p.call.table = some T) {answer : Answer} (ha : p.answer = some answer) (now : String) (a : Action) :
    Fetched s₀ (as ++ [a]) { s with app := (s.app.take p.ticket).answered p.ticket p.call answer now } T := by
  obtain ⟨reply, k⟩ := answer
  have hdrop := h.drop p a
  obtain ⟨t, call, answer⟩ := p
  cases reply with
  | documents documents =>
    cases call <;> simp only [Call.table, Option.some.injEq, reduceCtorEq] at hc <;> subst hc
    case loadData =>
      exact h.assign hp rfl ha (e := .loaded t k _) (by simp [Event.shown]) rfl rfl rfl rfl a
    case reloadComment screen uid =>
      obtain ⟨w, ⟨d, hd, -⟩, -⟩ := hS.calls _ hp rfl
      have hd : (s.app.take t).details screen = some d := hd
      by_cases hl : (s.app.take t).alive screen = true
      · simp only [App.answered, App.commentsReloaded, hd, if_pos hl]
        exact h.assign hp rfl ha (e := .reloaded screen t k _) (by simp [Event.shown]) rfl rfl rfl
          (by simp [App.listing]) a
      · simp only [App.answered, App.commentsReloaded, hd, if_neg hl]
        exact hdrop
  | failed | done | url =>
    cases call <;> simp only [Call.table, reduceCtorEq] at hc <;> exact hdrop

theorem step (h : Fetched s₀ as s T) (hrun : run BlindBoard.step s₀ as = some s)
    (hS : Screens s) (ht : Tickets s)
    {a : Action} (hs : BlindBoard.step s a = some s') : Fetched s₀ (as ++ [a]) s' T := by
  have hs := act_of_step hs
  by_cases ha : a.about s T
  · cases act_iff.mp hs with
    | @serve p r outcome hf hn hr =>
      obtain ⟨q, hq, hc⟩ := ha
      cases hf.symm.trans hq
      exact h.serve hrun hf hn hc hr outcome
    | @answer p answer now hf hn =>
      obtain ⟨q, hq, hc⟩ := ha
      cases hf.symm.trans hq
      exact h.answered hS (App.find_mem hf).1 hc hn now _
    | _ => exact ha.elim
  · exact h.keep (act_keeps hS ht hs ha) a

end Fetched

/-- In every run. -/
theorem fetched_of_runs {s₀ s : State} {as : List Action} (h₀ : Start s₀)
    (h : Runs step anyStep s₀ as s) (T : Table) :
    Fetched s₀ as s T := by
  induction h with
  | nil => exact .start h₀
  | snoc hr _ hs ih =>
    have hm : Moved _ := Reach.moved ⟨s₀, _, h₀, hr⟩
    exact ih.step hr.run_eq hm.screens hm.tickets hs

/-- A list is the answer that was assigned to it last, and each of its answers is what a
query for it found in the cloud when it was served. If the answers for each list arrive in
the order in which their queries were served, no list goes back in time, and with no fetch
outstanding and none failed it is the answer to the fetch served last. -/
theorem lists_forward {s₀ s : State} {as : List Action} (h₀ : Start s₀)
    (h : Runs step anyStep s₀ as s) (T : Table) :
    (∀ x ∈ (s.app.shown T).getLast?, s.app.listing T = some x.2) ∧
    (∀ x ∈ s.app.shown T, ∃ t call s', ServedIn s₀ as t x.1 call s' ∧ call.table = some T ∧
      call.read (call.documents s'.app.uid s'.cloud) = some x.2) ∧
    (Runs step InOrder s₀ as s → ((s.app.shown T).map Prod.fst).Pairwise (· ≤ ·) ∧
      (s.app.OnStack T → (∀ p ∈ s.app.net, p.call.table ≠ some T) → (∀ k, ¬ s.app.Served T k .failure) →
        ∀ k o, s.app.Served T k o → (∀ j o', s.app.Served T j o' → j ≤ k) →
          ∃ l, (s.app.shown T).getLast? = some (k, l) ∧ s.app.listing T = some l)) := by
  have hfetched := fetched_of_runs h₀ h T
  refine ⟨hfetched.last, hfetched.shown, fun ho => ?_⟩
  have hF : Forward s T := by
    have hreach : Reachable step Start InOrder s := ⟨s₀, as, h₀, ho⟩
    refine hreach.inv (fun _ => Forward.start) fun s a s' hr hF ho hs => ?_
    have hm : Moved s := Reach.moved (hr.mono fun _ _ _ => trivial)
    exact hF.step hm.screens hm.tickets ho hs
  refine ⟨hF.sorted, fun hs hnet hfail k o hk hlast => ?_⟩
  cases o with
  | failure => exact absurd hk (hfail k)
  | success url =>
    rcases hF.delivered hs k url hk with ⟨x, hx, rfl⟩ | ⟨p, hp, hc, -⟩
    · obtain ⟨y, hy⟩ :=
        Option.ne_none_iff_exists'.mp (List.getLast?_eq_none_iff.not.mpr (List.ne_nil_of_mem hx))
      have hym : y ∈ s.app.shown T := List.mem_of_getLast? hy
      obtain ⟨o, ho⟩ := hF.queries y hym
      -- the last stamp is not before `x`'s, and not after it
      have hle : x.1 ≤ y.1 := by
        obtain ⟨ys, hys⟩ := List.getLast?_eq_some_iff.mp hy
        have hp := hF.sorted
        rw [hys, List.map_append, List.pairwise_append] at hp
        rw [hys] at hx
        rcases List.mem_append.mp hx with hx | hx
        · exact hp.2.2 _ (List.mem_map_of_mem hx) _ (by simp)
        · rw [List.mem_singleton.mp hx]
      have : y.1 = x.1 := le_antisymm (hlast _ o ho) hle
      exact ⟨y.2, by rw [hy, ← this], hfetched.last y hy⟩
    · exact absurd hc (hnet p hp)

theorem runs_twoWords : Runs step anyStep (State.empty (some phone)) twoWords twoWordsListed :=
  runs_of_run (Option.some_get twoWords_run).symm

theorem lists_forward_dog_cat :
    (∀ x ∈ (twoWordsListed.app.shown .board).getLast?, twoWordsListed.app.listing .board = some x.2) ∧
    (∀ x ∈ twoWordsListed.app.shown .board, ∃ t call s',
      ServedIn (State.empty (some phone)) twoWords t x.1 call s' ∧
      call.table = some .board ∧ call.read (call.documents s'.app.uid s'.cloud) = some x.2) ∧
    ((twoWordsListed.app.shown .board).map Prod.fst).Pairwise (· ≤ ·) :=
  have h := lists_forward (start_empty _) runs_twoWords .board
  ⟨h.1, h.2.1, (h.2.2 (runs_of_guarded (Option.some_get twoWords_run).symm (by decide +kernel))).1⟩

/-! ## A saved word that disappears -/

/-- The first fetch is served before a word is added and answered after the fetch
of the completed add. -/
def overtakenActions : List Action :=
  [.viewDidLoad, .serve 0 (.success "")] ++ addActions 1 "cat" uuid₁ uuid₂ "2022-10-01T09:00:00Z" ++
    fetchActions 6 ++ [.answer 0 ""]

theorem overtaken_end : ∃ s, Runs step anyStep (State.empty (some phone)) overtakenActions s ∧
    s.app.shown .board = [(12, .inl [cat]), (1, .inl [])] :=
  exists_runs (by decide +kernel)

theorem overtakenActions_run : (run step (State.empty (some phone)) overtakenActions).isSome = true :=
  isSome_of_exists_runs overtaken_end

def overtaken : State := (run step (State.empty (some phone)) overtakenActions).get overtakenActions_run

theorem list_goes_back : ¬ ∀ s, Reach s → ∀ T, ((s.app.shown T).map Prod.fst).Pairwise (· ≤ ·) := by
  intro h
  have hs := h overtaken (reach_of_run (start_empty _) overtakenActions_run) .board
  rw [overtaken, (get_of_exists_runs overtaken_end overtakenActions_run).2] at hs
  exact absurd hs (by decide)

end BlindBoard
