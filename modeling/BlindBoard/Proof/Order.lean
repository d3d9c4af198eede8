import BlindBoard.Proof.History
import BlindBoard.Proof.WordList

/-!
# The order of the lists

The words of a board are listed by the texts of the instants at which they were
written, the comments of a word by those at which they were made, and texts of
one second by document ID. So in a list the newer of two elements stands above
(below) the older one when their seconds differ, and the document ID decides when they
do not (`lists_in_order`): two words written within one second can stand either
way (`lists_out_of_order`).
-/

namespace BlindBoard

open Lib

/-! ## Where documents come from -/

namespace Timeline

variable {L : Type}

/-- The history has the call that writes the document `e` of the board of `uid`. -/
def Stored (T : Timeline L) (uid : Option UUID) (e : Path × Dictionary) : Prop :=
  ∃ d l t call, (d, l, .issued t call) ∈ T.history ∧ T.world.uid l = uid ∧
    call.request uid = some (.setData e.1 e.2)

/-- The documents of a query, which are in its order. -/
structure Delivered (T : Timeline L) (uid : Option UUID) (collection : Path)
    (field : String) (descending : Bool)
    (documents : List (Path × Dictionary)) : Prop where
  sorted : documents.Pairwise (Ordered field descending)
  keys : (documents.map Prod.fst).Nodup
  of : ∀ e ∈ documents, inCollection collection e.1 = true ∧ T.Stored uid e

/-- What the launches' events and instants have to do with one another and with the cloud. -/
structure Chronicle (T : Timeline L) : Prop where
  times : T.history.Pairwise fun x y => x.1.timeIntervalSinceReferenceDate ≤
    y.1.timeIntervalSinceReferenceDate
  clock : ∀ x ∈ T.history, x.1.timeIntervalSinceReferenceDate ≤
    T.clock.timeIntervalSinceReferenceDate ∧ x.1.InEra
  log : ∀ l, ∀ e ∈ (T.world.apps l).log, ∃ d, (d, l, e) ∈ T.history
  dated : ∀ d l t call, (d, l, .issued t call) ∈ T.history →
    (∀ date, call.madeDate = some date → date = d.ISO8601Format) ∧ ∀ w, call.word = some w → IsUUID w.uid
  net : ∀ l, ∀ p ∈ (T.world.apps l).net, .issued p.ticket p.call ∈ (T.world.apps l).log
  documents : ∀ l p dictionary, COLLECTION_BOARD (T.world.uid l) <+: p →
    T.world.cloud.documents.lookup p = some dictionary → T.Stored (T.world.uid l) (p, dictionary)
  answers : ∀ l, ∀ p ∈ (T.world.apps l).net, ∀ documents k, p.answer = some ⟨.documents documents, k⟩ →
    ∃ collection field descending,
    p.call.request (T.world.uid l) = some (.getDocuments collection field descending) ∧
      T.Delivered (T.world.uid l) collection field descending documents
  loaded : ∀ l t k words, .loaded t k words ∈ (T.world.apps l).log → ∃ documents,
    T.Delivered (T.world.uid l) (COLLECTION_BOARD (T.world.uid l)) "writtenTime" true documents ∧
      words = documents.map fun d => Word.ofDictionary d.2
  reloaded : ∀ l screen t k comments, .reloaded screen t k comments ∈ (T.world.apps l).log → ∃ word documents,
    .issued t (.reloadComment screen word) ∈ (T.world.apps l).log ∧
      T.Delivered (T.world.uid l) (commentCollection (T.world.uid l) word) "commentMadeDate" false documents ∧
      comments = documents.map fun d => Comment.ofDictionary d.2

theorem Start.chronicle {T : Timeline L} (h : T.Start) : T.Chronicle := by
  have hh := h.history
  constructor
  case times => rw [hh]; exact .nil
  case clock => rw [hh]; simp
  case log => intro l e he; rw [h.launches l] at he; cases he
  case dated => rw [hh]; simp
  case net => intro l p hp; rw [h.launches l] at hp; cases hp
  case documents => intro l p d hp hl; rw [h.documents l p hp] at hl; cases hl
  case answers => intro l p hp; rw [h.launches l] at hp; cases hp
  case loaded => intro l t k words he; rw [h.launches l] at he; cases he
  case reloaded => intro l screen t k comments he; rw [h.launches l] at he; cases he

theorem Stored.mono {T T' : Timeline L} {uid : Option UUID} {e : Path × Dictionary} (h : T.Stored uid e)
    (hh : T.history ⊆ T'.history) (hu : ∀ l, T'.world.uid l = T.world.uid l) : T'.Stored uid e := by
  obtain ⟨d, l, t, call, hm, hl, hc⟩ := h
  exact ⟨d, l, t, call, hh hm, (hu l).trans hl, hc⟩

theorem Delivered.mono {T T' : Timeline L} {uid : Option UUID} {collection : Path}
    {field : String} {descending : Bool}
    {documents : List (Path × Dictionary)} (h : T.Delivered uid collection field descending documents)
    (hh : T.history ⊆ T'.history) (hu : ∀ l, T'.world.uid l = T.world.uid l) :
    T'.Delivered uid collection field descending documents :=
  ⟨h.sorted, h.keys, fun e he => ⟨(h.of e he).1, (h.of e he).2.mono hh hu⟩⟩

/-- The text that a step gets from the clock is that of its instant. -/
theorem now_readingClock (d : Date) (a : Action) {date : String} (h : (a.readingClock d).now = some date) :
    date = d.ISO8601Format := by
  cases a <;> cases h <;> rfl

theorem Chronicle.named {T : Timeline L} (h : T.Chronicle) (l : L) : (T.world.apps l).Named := by
  intro p hp w hw
  obtain ⟨d, hd⟩ := h.log l _ (h.net l p hp)
  exact (h.dated d l p.ticket p.call hd).2 w hw

/-- From `T` to `T'` the launch `l₀` takes the step `a` at the instant `d` and notes `events`. -/
structure Took (T T' : Timeline L) (d : Date) (l₀ : L) (a : Action) (events : List Event) : Prop where
  act : act (T.world.view l₀) (a.readingClock d) = some (T'.world.view l₀)
  clock : T'.clock = d
  history : T'.history = T.history ++ events.map fun e => (d, l₀, e)
  log : (T'.world.apps l₀).log = (T.world.apps l₀).log ++ events
  explained : ∀ e ∈ events, (a.readingClock d).Explains (T.world.view l₀) e
  others : ∀ l, l ≠ l₀ → T'.world.apps l = T.world.apps l
  uid : ∀ l, T'.world.uid l = T.world.uid l

namespace Took

variable {T T' : Timeline L} {d : Date} {l₀ : L} {a : Action} {events : List Event}

theorem subset (hk : T.Took T' d l₀ a events) : T.history ⊆ T'.history :=
  hk.history ▸ List.subset_append_left _ _

theorem mem_history (hk : T.Took T' d l₀ a events) {x : Date × L × Event} (hx : x ∈ T'.history) :
    x ∈ T.history ∨ ∃ e ∈ events, x = (d, l₀, e) := by
  rw [hk.history] at hx
  rcases List.mem_append.mp hx with hx | hx
  · exact .inl hx
  · obtain ⟨e, he, rfl⟩ := List.mem_map.mp hx
    exact .inr ⟨e, he, rfl⟩

theorem noted (hk : T.Took T' d l₀ a events) {e : Event} (he : e ∈ events) : (d, l₀, e) ∈ T'.history :=
  hk.history ▸ List.mem_append_right _ (List.mem_map.mpr ⟨e, he, rfl⟩)

theorem mem_log (hk : T.Took T' d l₀ a events) {l : L} {e : Event} (he : e ∈ (T'.world.apps l).log) :
    e ∈ (T.world.apps l).log ∨ l = l₀ ∧ e ∈ events := by
  by_cases hl : l = l₀
  · subst hl
    rw [hk.log] at he
    exact (List.mem_append.mp he).imp id fun he => ⟨rfl, he⟩
  · rw [hk.others l hl] at he
    exact .inl he

theorem kept (hk : T.Took T' d l₀ a events) {l : L} {e : Event} (he : e ∈ (T.world.apps l).log) :
    e ∈ (T'.world.apps l).log := by
  by_cases hl : l = l₀
  · subst hl
    rw [hk.log]
    exact List.mem_append_left _ he
  · rwa [hk.others l hl]

end Took

variable {T T' : Timeline L} {d : Date} {l₀ : L} {a : Action} {events : List Event}

/-- A step of the timeline is a step of a launch. -/
theorem took_of_step [DecidableEq L] (hN : (T.world.apps l₀).Named) (hs : T.step (d, l₀, a) = some T') :
    ∃ events, T.Took T' d l₀ a events := by
  simp only [step, World.step, BlindBoard.step, Option.map_eq_some_iff, Option.ite_none_left_eq_some] at hs
  obtain ⟨w, ⟨s', ⟨-, hact⟩, rfl⟩, rfl⟩ := hs
  have hN : (T.world.view l₀).app.Named := hN
  obtain ⟨events, hlog, hok, huid⟩ := act_noted hN hact
  have happ : (T.world.put l₀ s').apps l₀ = s'.app := by simp [World.put]
  have hothers : ∀ l, l ≠ l₀ → (T.world.put l₀ s').apps l = T.world.apps l :=
    fun l hl => World.apps_put_ne _ _ hl
  refine ⟨events, by rw [World.view_put]; exact hact, rfl, ?_, happ ▸ hlog, hok, hothers, fun l => ?_⟩
  · rw [recorded, happ, hlog]
    exact congrArg (T.history ++ List.map _ ·) List.drop_left
  · by_cases hl : l = l₀
    · subst hl
      rw [World.uid, happ, huid]
      rfl
    · rw [World.uid, hothers l hl]
      rfl

theorem Chronicle.took [DecidableEq L] (h : T.Chronicle) (hs : T.step (d, l₀, a) = some T') :
    ∃ events, T.Took T' d l₀ a events := took_of_step (h.named l₀) hs

namespace Took

/-! ### What a step keeps, with the events that it notes -/

theorem times (hk : T.Took T' d l₀ a events) (h : T.Chronicle) (hx : T.ClockForward (d, l₀, a)) :
    T'.history.Pairwise fun x y =>
      x.1.timeIntervalSinceReferenceDate ≤ y.1.timeIntervalSinceReferenceDate := by
  have hnew : (events.map fun e => (d, l₀, e)).Pairwise
      fun x y => x.1.timeIntervalSinceReferenceDate ≤ y.1.timeIntervalSinceReferenceDate :=
    List.pairwise_map.mpr (List.pairwise_of_forall fun _ _ => le_rfl)
  rw [hk.history]
  refine List.pairwise_append.mpr ⟨h.times, hnew, fun x hx' y hy => ?_⟩
  obtain ⟨e, -, rfl⟩ := List.mem_map.mp hy
  exact (h.clock x hx').1.trans hx.1

theorem log_history (hk : T.Took T' d l₀ a events) (h : T.Chronicle) (l : L) (e : Event)
    (he : e ∈ (T'.world.apps l).log) : ∃ d, (d, l, e) ∈ T'.history := by
  rcases hk.mem_log he with he | ⟨rfl, he⟩
  · obtain ⟨d', hd'⟩ := h.log l e he
    exact ⟨d', hk.subset hd'⟩
  · exact ⟨d, hk.noted he⟩

theorem net (hk : T.Took T' d l₀ a events) (h : T.Chronicle) (l : L) (p : InFlight)
    (hp : p ∈ (T'.world.apps l).net) :
    .issued p.ticket p.call ∈ (T'.world.apps l).log := by
  by_cases hl : l = l₀
  · subst hl
    rcases act_net (h.named l) hk.act hp with hp | ⟨-, hi⟩ | ⟨q, hq, ht, hc, -⟩
    · exact hk.kept (h.net l p hp)
    · exact hi
    · rw [ht, hc]
      exact hk.kept (h.net l q hq)
  · rw [hk.others l hl] at hp
    exact hk.kept (h.net l p hp)

theorem documents (hk : T.Took T' d l₀ a events) (h : T.Chronicle) (l : L)
    (p : Path) (dictionary : Dictionary)
    (hp : COLLECTION_BOARD (T'.world.uid l) <+: p)
    (hl : T'.world.cloud.documents.lookup p = some dictionary) :
    T'.Stored (T'.world.uid l) (p, dictionary) := by
  rw [hk.uid] at hp ⊢
  rcases act_documents hk.act hl with hl | ⟨q, hq, hr⟩
  · exact (h.documents l p dictionary hp hl).mono hk.subset hk.uid
  · -- the call that writes it is one of a launch with the same name
    have hu : T.world.uid l = T.world.uid l₀ := documents_apart hp (Call.request_within hr)
    obtain ⟨d', hd'⟩ := h.log l₀ _ (h.net l₀ q hq)
    exact ⟨d', l₀, q.ticket, q.call, hk.subset hd', (hk.uid l₀).trans hu.symm, hu ▸ hr⟩

theorem answers (hk : T.Took T' d l₀ a events) (h : T.Chronicle) (l : L) (p : InFlight)
    (hp : p ∈ (T'.world.apps l).net) (documents : List (Path × Dictionary)) (k : Nat)
    (ha : p.answer = some ⟨.documents documents, k⟩) : ∃ collection field descending,
      p.call.request (T'.world.uid l) = some (.getDocuments collection field descending) ∧
        T'.Delivered (T'.world.uid l) collection field descending documents := by
  rw [hk.uid]
  have old (hp : p ∈ (T.world.apps l).net) : ∃ collection field descending,
      p.call.request (T.world.uid l) = some (.getDocuments collection field descending) ∧
        T'.Delivered (T.world.uid l) collection field descending documents := by
    obtain ⟨c, f, desc, hr, hD⟩ := h.answers l p hp documents k ha
    exact ⟨c, f, desc, hr, hD.mono hk.subset hk.uid⟩
  by_cases hl : l = l₀
  · subst hl
    rcases act_net (h.named l) hk.act hp with hp | ⟨hn, -⟩ | ⟨q, hq, -, hc, hd⟩
    · exact old hp
    · rw [hn] at ha
      cases ha
    · -- the query has just been served
      obtain ⟨c, f, desc, hr, rfl⟩ := hd documents k ha
      refine ⟨c, f, desc, hc ▸ hr, sorted_getDocuments .., Store.keys_query _, fun e he => ?_⟩
      obtain ⟨hlook, hin, -⟩ := mem_getDocuments.mp he
      obtain ⟨id, hid⟩ := inCollection_iff.mp hin
      have hpre : COLLECTION_BOARD (T.world.uid l) <+: e.1 :=
        hid ▸ (Call.request_within hr).trans (List.prefix_append c [id])
      exact ⟨hin, (h.documents l e.1 e.2 hpre hlook).mono hk.subset hk.uid⟩
  · rw [hk.others l hl] at hp
    exact old hp

theorem loaded (hk : T.Took T' d l₀ a events) (h : T.Chronicle) (l : L) (t k : Nat) (words : List Word)
    (he : .loaded t k words ∈ (T'.world.apps l).log) : ∃ documents,
      T'.Delivered (T'.world.uid l) (COLLECTION_BOARD (T'.world.uid l)) "writtenTime" true documents ∧
        words = documents.map fun d => Word.ofDictionary d.2 := by
  rw [hk.uid]
  rcases hk.mem_log he with he | ⟨rfl, he⟩
  · obtain ⟨documents, hD, hw⟩ := h.loaded l t k words he
    exact ⟨documents, hD.mono hk.subset hk.uid, hw⟩
  · obtain ⟨p, hp, documents, k', -, hc, ha, hw⟩ := hk.explained _ he
    obtain ⟨c, f, desc, hr, hD⟩ := h.answers l p hp documents k' ha
    rw [hc] at hr
    cases hr
    exact ⟨documents, hD.mono hk.subset hk.uid, hw⟩

theorem reloaded (hk : T.Took T' d l₀ a events) (h : T.Chronicle) (l : L)
    (screen t k : Nat) (comments : List Comment)
    (he : .reloaded screen t k comments ∈ (T'.world.apps l).log) : ∃ word documents,
      .issued t (.reloadComment screen word) ∈ (T'.world.apps l).log ∧
        T'.Delivered (T'.world.uid l)
        (commentCollection (T'.world.uid l) word) "commentMadeDate" false documents ∧
        comments = documents.map fun d => Comment.ofDictionary d.2 := by
  rw [hk.uid]
  rcases hk.mem_log he with he | ⟨rfl, he⟩
  · obtain ⟨word, documents, hi, hD, hc⟩ := h.reloaded l screen t k comments he
    exact ⟨word, documents, hk.kept hi, hD.mono hk.subset hk.uid, hc⟩
  · obtain ⟨p, hp, word, documents, k', rfl, hc, ha, hw⟩ := hk.explained _ he
    obtain ⟨c, f, desc, hr, hD⟩ := h.answers l p hp documents k' ha
    have hi := h.net l p hp
    rw [hc] at hr hi
    cases hr
    exact ⟨word, documents, hk.kept hi, hD.mono hk.subset hk.uid, hw⟩

end Took

theorem Chronicle.step [DecidableEq L] (h : T.Chronicle) (hx : T.ClockForward (d, l₀, a))
    (hs : T.step (d, l₀, a) = some T') : T'.Chronicle := by
  obtain ⟨events, hk⟩ := h.took hs
  refine
    { times := hk.times h hx
      clock := fun y hy => ?_
      log := hk.log_history h
      dated := fun d' l t call he => ?_
      net := hk.net h
      documents := hk.documents h
      answers := hk.answers h
      loaded := hk.loaded h
      reloaded := hk.reloaded h }
  · rw [hk.clock]
    rcases hk.mem_history hy with hy | ⟨e, -, rfl⟩
    · exact ⟨(h.clock y hy).1.trans hx.1, (h.clock y hy).2⟩
    · exact ⟨le_rfl, hx.2⟩
  · rcases hk.mem_history he with he | ⟨e, he', heq⟩
    · exact h.dated d' l t call he
    · cases heq
      obtain ⟨hd, hw⟩ := hk.explained _ he'
      exact ⟨fun date hm => now_readingClock d a (hd date hm), hw⟩

/-- The state of a run has its chronicle. -/
theorem Start.run_chronicle [DecidableEq L] {T₀ : Timeline L} {as : List (Date × L × Action)} (h₀ : T₀.Start)
    (hr : Runs Timeline.step ClockForward T₀ as T) : T.Chronicle :=
  hr.inv (fun _ _ _ h hx hs => h.step hx hs) h₀.chronicle

end Timeline

/-! ## The texts of a list are in order -/

/-- When an element of a list was made, and the ID of its document. -/
structure Creation where
  /-- Where the history has the call that made it. -/
  place : Nat
  date : Date
  id : String

/-- `c` was made in a later second than `c'`, or in the same one and has the greater ID. -/
def Creation.Newer (c c' : Creation) : Prop :=
  c'.place < c.place ∧ c'.date.second < c.date.second ∨ c'.date.second = c.date.second ∧ c'.id < c.id

theorem Date.second_mono {d d' : Date}
    (h : d.timeIntervalSinceReferenceDate ≤ d'.timeIntervalSinceReferenceDate) :
    d.second ≤ d'.second := by
  have := Rat.floor_monotone h
  unfold Date.second
  omega

namespace Timeline

variable {L : Type}

/-- `c` made the document `e` of the collection, which carries its text in `field`. -/
structure Made (T : Timeline L) (collection : Path) (field : String) (c : Creation)
    (e : Path × Dictionary) : Prop where
  place : ∃ x, T.history[c.place]? = some x ∧ x.1 = c.date
  text : e.2.lookup field = some (.string c.date.ISO8601Format)
  path : e.1 = collection ++ [c.id]

theorem Made.sortKey_eq {T : Timeline L} {collection : Path} {field : String}
    {c : Creation} {e : Path × Dictionary}
    (h : T.Made collection field c e) :
    sortKey field e = toLex (toLex (.inr c.date.ISO8601Format), c.id) := by
  simp [sortKey, h.text, h.path, FieldValue.key]

/-- The order of the sort is that of creation, to the second. -/
theorem Chronicle.newer {T : Timeline L} (h : T.Chronicle) {collection : Path}
    {field : String} {c c' : Creation}
    {e e' : Path × Dictionary} (hc : T.Made collection field c e) (hc' : T.Made collection field c' e')
    (hle : sortKey field e' ≤ sortKey field e) (hne : e.1 ≠ e'.1) : c.Newer c' := by
  obtain ⟨x, hx, hd⟩ := hc.place
  obtain ⟨x', hx', hd'⟩ := hc'.place
  have he : c.date.InEra := hd ▸ (h.clock x (List.mem_of_getElem? hx)).2
  have he' : c'.date.InEra := hd' ▸ (h.clock x' (List.mem_of_getElem? hx')).2
  rw [hc.sortKey_eq, hc'.sortKey_eq, Prod.Lex.toLex_le_toLex] at hle
  rcases hle with hlt | ⟨heq, hid⟩
  · have hs : c'.date.second < c.date.second :=
      (Date.ISO8601Format_lt_iff he' he).mp (Sum.Lex.inr_lt_inr_iff.mp hlt)
    refine .inl ⟨?_, hs⟩
    by_contra hn
    have hle : c.date.timeIntervalSinceReferenceDate ≤ c'.date.timeIntervalSinceReferenceDate := by
      obtain ⟨hb, hx⟩ := List.getElem?_eq_some_iff.mp hx
      obtain ⟨hb', hx'⟩ := List.getElem?_eq_some_iff.mp hx'
      rcases Nat.lt_or_eq_of_le (Nat.not_lt.mp hn) with hlt | heq
      · have := List.pairwise_iff_getElem.mp h.times _ _ hb hb' hlt
        rwa [hx, hx', hd, hd'] at this
      · have : x = x' := by rw [← hx, ← hx']; simp only [heq]
        rw [← hd, ← hd', this]
    have := Date.second_mono hle
    omega
  · have hs : c'.date.ISO8601Format = c.date.ISO8601Format := by simpa using heq
    have h₁ := mt (Date.ISO8601Format_lt_iff he he').mpr (by rw [hs]; exact lt_irrefl _)
    have h₂ := mt (Date.ISO8601Format_lt_iff he' he).mpr (by rw [hs]; exact lt_irrefl _)
    refine .inr ⟨by omega, lt_of_le_of_ne hid fun hi => hne ?_⟩
    rw [hc.path, hc'.path, hi]

/-- `c` is the call that wrote `word` on the board of `uid`. -/
def Wrote (T : Timeline L) (uid : Option UUID) (c : Creation) (word : Word) : Prop :=
  ∃ l t saved imageUrl imageFileName, T.world.uid l = uid ∧
    T.history[c.place]? = some (c.date, l,
      .issued t (.setData saved c.date.ISO8601Format imageUrl imageFileName)) ∧
    c.id = saved.uid ∧ word = { saved with imageUrl, imageFileName }

/-- `c` is the call that added `comment` to the comments of `word`. -/
def Commented (T : Timeline L) (uid : Option UUID) (word : String) (c : Creation)
    (comment : Comment) : Prop :=
  ∃ l t screen word', T.world.uid l = uid ∧
    T.history[c.place]? = some (c.date, l, .issued t (.addDocument screen word' c.id comment)) ∧
    commentCollection uid word' = commentCollection uid word ∧ comment.commentMadeDate = c.date.ISO8601Format

/-- A listed document was written by the call that its word comes from. -/
theorem Chronicle.wrote {T : Timeline L} (h : T.Chronicle) {uid : Option UUID} {e : Path × Dictionary}
    (hin : inCollection (COLLECTION_BOARD uid) e.1 = true) (he : T.Stored uid e) :
    ∃ c, T.Made (COLLECTION_BOARD uid) "writtenTime" c e ∧ T.Wrote uid c (Word.ofDictionary e.2) := by
  obtain ⟨p, dictionary⟩ := e
  obtain ⟨d, l, t, call, hm, hl, hr⟩ := he
  obtain ⟨id, rfl⟩ := inCollection_iff.mp hin
  obtain ⟨n, hn⟩ := List.mem_iff_getElem?.mp hm
  obtain ⟨hd, hw⟩ := h.dated d l t call hm
  cases call with
  | setData w time imageUrl imageFileName =>
    simp only [Call.request, Option.some.injEq, Request.setData.injEq] at hr
    obtain ⟨hp, rfl⟩ := hr
    obtain rfl := hd time rfl
    rw [wordDocument_uuid uid (hw w rfl), COLLECTION_BOARD_eq] at hp
    have hid : w.uid = id := by simpa using hp
    refine ⟨⟨n, d, w.uid⟩, ⟨⟨_, hn, rfl⟩, rfl, by rw [hid]⟩, l, t, w, imageUrl,
      imageFileName, hl, hn, rfl, rfl⟩
  | addDocument screen word autoID comment =>
    simp only [Call.request, Option.some.injEq, Request.setData.injEq] at hr
    have hlen := congrArg List.length hr.1
    simp [commentCollection, wordDocument] at hlen
  | _ => cases hr

/-- A listed comment was added by the call that it comes from. -/
theorem Chronicle.commented {T : Timeline L} (h : T.Chronicle) {uid : Option UUID} {word : String}
    {e : Path × Dictionary} (hin : inCollection (commentCollection uid word) e.1 = true)
    (he : T.Stored uid e) :
    ∃ c, T.Made (commentCollection uid word) "commentMadeDate" c e ∧
      T.Commented uid word c (Comment.ofDictionary e.2) := by
  obtain ⟨p, dictionary⟩ := e
  obtain ⟨d, l, t, call, hm, hl, hr⟩ := he
  obtain ⟨id, rfl⟩ := inCollection_iff.mp hin
  obtain ⟨n, hn⟩ := List.mem_iff_getElem?.mp hm
  obtain ⟨hd, hw⟩ := h.dated d l t call hm
  cases call with
  | setData w time imageUrl imageFileName =>
    simp only [Call.request, Option.some.injEq, Request.setData.injEq] at hr
    have hlen := congrArg List.length hr.1
    rw [wordDocument_uuid uid (hw w rfl), commentCollection, wordDocument, COLLECTION_BOARD_eq] at hlen
    simp at hlen
  | addDocument screen word' autoID comment =>
    simp only [Call.request, Option.some.injEq, Request.setData.injEq] at hr
    obtain ⟨hp, rfl⟩ := hr
    obtain ⟨hc, hid⟩ := List.append_inj' hp rfl
    obtain rfl : autoID = id := by simpa using hid
    have hdate := hd _ rfl
    refine ⟨⟨n, d, autoID⟩, ⟨⟨_, hn, rfl⟩, ?_, rfl⟩, l, t, screen, word', hl, hn, hc, hdate⟩
    rw [← hdate]
    rfl
  | _ => cases hr

end Timeline

/-- While the clock does not go back, the newer of two listed words stands above the
older, and the older of two listed comments of a word above the newer, when their
seconds differ, and the document ID decides when they do not. -/
theorem lists_in_order {L : Type} [DecidableEq L] {T₀ T : Timeline L} {as : List (Date × L × Action)}
    (h₀ : T₀.Start)
    (hr : Runs Timeline.step Timeline.ClockForward T₀ as T) (l : L) :
    (∀ t k words, .loaded t k words ∈ (T.world.apps l).log →
      ∃ made, List.Forall₂ (T.Wrote (T.world.uid l)) made words ∧ made.Pairwise Creation.Newer) ∧
    ∀ screen t k comments, .reloaded screen t k comments ∈ (T.world.apps l).log →
      ∃ word, .issued t (.reloadComment screen word) ∈ (T.world.apps l).log ∧
        ∃ made, List.Forall₂ (T.Commented (T.world.uid l) word) made comments ∧
          made.Pairwise fun c c' => c'.Newer c := by
  have h := h₀.run_chronicle hr
  have : Nonempty Creation := ⟨⟨0, T.clock, ""⟩⟩
  constructor
  · intro t k words he
    obtain ⟨documents, hD, rfl⟩ := h.loaded l t k words he
    refine exists_forall₂_map (P := fun c e => T.Made _ "writtenTime" c e)
      (fun e he => h.wrote (hD.of e he).1 (hD.of e he).2)
      (hD.sorted.and (List.pairwise_map.mp hD.keys)) fun e e' c c' hs hc hc' => ?_
    exact h.newer hc hc' hs.1 hs.2
  · intro screen t k comments he
    obtain ⟨word, documents, hi, hD, rfl⟩ := h.reloaded l screen t k comments he
    refine ⟨word, hi, exists_forall₂_map (P := fun c e => T.Made _ "commentMadeDate" c e)
      (fun e he => h.commented (hD.of e he).1 (hD.of e he).2)
      (hD.sorted.and (List.pairwise_map.mp hD.keys)) fun e e' c c' hs hc hc' => ?_⟩
    exact h.newer hc' hc hs.1 hs.2.symm

/-! ## Two words of one second -/

/-- Steps that a launch takes at one instant. -/
def allAt (d : Date) (as : List Action) : List (Date × Unit × Action) := as.map fun a => (d, (), a)

/-- A launch on the phone, with an empty cloud. -/
def freshPhone : Timeline Unit := ⟨World.empty fun _ => some phone, ⟨686286000⟩, []⟩

/-- Two words are added within one second, and the list is fetched. -/
def sameSecond : List (Date × Unit × Action) :=
  allAt ⟨686286005 + 1 / 10⟩ (addActions 0 "dog" uuid₂ uuid₃ "") ++
    allAt ⟨686286005 + 9 / 10⟩ (addActions 6 "cat" uuid₁ uuid₄ "" ++ fetchActions 11)

/-- The word that an event writes. -/
def Event.writes : Event → Option String
  | .issued _ (.setData w _ _ _) => some w.uid
  | _ => none

theorem freshPhone_start : freshPhone.Start :=
  ⟨fun _ => rfl, fun _ _ _ => AList.lookup_empty _, rfl⟩

theorem Timeline.Wrote.writes {T : Timeline Unit} {uid : Option UUID} {c : Creation} {word : Word}
    (h : T.Wrote uid c word) : (T.history.map fun x => x.2.2.writes)[c.place]? = some (some word.uid) := by
  obtain ⟨l, t, saved, imageUrl, imageFileName, -, hc, -, rfl⟩ := h
  rw [List.getElem?_map, hc]
  rfl

/-- What the events of that run write: event 6 the one word, event 16 the other. -/
def sameSecondWrites : List (Option String) :=
  List.replicate 6 none ++ some uuid₂.uuidString :: List.replicate 9 none ++
    some uuid₁.uuidString :: List.replicate 5 none

/-- The older word is listed first. -/
theorem sameSecond_facts : ∃ T, Runs Timeline.step Timeline.ClockForward freshPhone sameSecond T ∧
    (T.history.map fun x => x.2.2.writes) = sameSecondWrites ∧
    (T.world.apps ()).arr.map Word.uid = [uuid₂.uuidString, uuid₁.uuidString] ∧
    .loaded 11 20 (T.world.apps ()).arr ∈ (T.world.apps ()).log :=
  exists_runs (P := fun T => _ ∧ _ ∧ _) (by decide +kernel)

theorem lists_out_of_order : ¬ ∀ (T₀ T : Timeline Unit) as, T₀.Start →
    Runs Timeline.step Timeline.ClockForward T₀ as T →
    ∀ t k words, .loaded t k words ∈ (T.world.apps ()).log → ∃ made,
      List.Forall₂ (T.Wrote (T.world.uid ())) made words ∧ made.Pairwise fun c c' => c'.place < c.place := by
  intro h
  obtain ⟨T, hr, hh, hw, hl⟩ := sameSecond_facts
  obtain ⟨made, hf, hp⟩ := h _ _ _ freshPhone_start hr _ _ _ hl
  generalize (T.world.apps ()).arr = words at hf hw
  have apart : ∀ i < 22, ∀ j < i, ¬ (sameSecondWrites[i]? = some (some uuid₂.uuidString) ∧
      sameSecondWrites[j]? = some (some uuid₁.uuidString)) := by decide +kernel
  cases hf with
  | nil => cases hw
  | @cons c dog _ _ hc hf =>
    cases hf with
    | nil => simp at hw
    | @cons c' cat made _ hc' hf =>
      have hp' : c'.place < c.place := (List.pairwise_cons.mp hp).1 c' List.mem_cons_self
      simp only [List.map_cons, List.cons.injEq] at hw
      have hd := hc.writes
      have hd' := hc'.writes
      rw [hh, hw.1] at hd
      rw [hh, hw.2.1] at hd'
      obtain ⟨hb, -⟩ := List.getElem?_eq_some_iff.mp hd
      exact apart _ hb _ hp' ⟨hd, hd'⟩

theorem lists_in_order_dog_cat : ∃ T, Runs Timeline.step Timeline.ClockForward freshPhone sameSecond T ∧
    (∀ t k words, .loaded t k words ∈ (T.world.apps ()).log →
      ∃ made, List.Forall₂ (T.Wrote (T.world.uid ())) made words ∧ made.Pairwise Creation.Newer) ∧
    ∀ screen t k comments, .reloaded screen t k comments ∈ (T.world.apps ()).log →
      ∃ word, .issued t (.reloadComment screen word) ∈ (T.world.apps ()).log ∧
        ∃ made, List.Forall₂ (T.Commented (T.world.uid ()) word) made comments ∧
          made.Pairwise fun c c' => c'.Newer c := by
  obtain ⟨T, hr, -⟩ := sameSecond_facts
  exact ⟨T, hr, lists_in_order freshPhone_start hr ()⟩

end BlindBoard
