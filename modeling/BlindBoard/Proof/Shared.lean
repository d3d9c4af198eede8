import BlindBoard.Spec.Shared
import BlindBoard.Proof.Ledger
import BlindBoard.Proof.Order
import Mathlib.Data.Set.List

/-!
# A board that launches share

Launches with one identifier, on any number of devices and in any order of
steps, act like one board: every list that is handed to a completion is the
abstract list at one place of the common history, which lies after the place
where the query was sent and before the one where the list was handed over.
`shared_words` says so of the words, `shared_comments` of the comments.
-/

namespace BlindBoard

open Lib Spec

namespace World

variable {L : Type} {w : World L} {history : List (L × Event)}

/-! ## What a query lists -/

/-- A word that was written has been saved, with the image of its own upload. -/
theorem Images.listed (h : w.Images) (hh : ∀ l e, (l, e) ∈ history ↔ e ∈ (w.apps l).log)
    {u : Option UUID} {saved : Word}
    {time imageUrl f : String} (hw : w.Wrote u saved time imageUrl f) (hn : ¬ w.Removed u saved.uid) :
    Listed (sharedLog w.uid u history) { saved with imageUrl, imageFileName := f } := by
  obtain ⟨t, o, l, rfl, hset⟩ := hw
  have mem {e : Event} (he : e ∈ (w.apps l).log) : e ∈ sharedLog w.uid (w.uid l) history :=
    mem_sharedLog.mpr ⟨l, rfl, (hh l e).mpr he⟩
  obtain ⟨t', data, hput⟩ := h.written l t saved time imageUrl f o hset
  obtain ⟨e, he, rfl, -⟩ := h.uploads l t' saved f data imageUrl hput
  obtain ⟨word, hsaved, ht, hc, hu⟩ := Board.mem_saved he
  obtain ⟨himage, hname⟩ := h.saves l e.sheet word hsaved
  obtain rfl : word = e.saved := by
    obtain ⟨title, content, uid, imageUrl, imageFileName⟩ := word
    simp only at ht hc hu himage hname
    rw [ht, hc, hu, himage, hname]
    rfl
  refine ⟨e.saved, rfl, ⟨e.sheet, mem hsaved⟩, ⟨t', data, mem hput⟩, ⟨t, time, o, mem hset⟩,
    fun t₁ screen o₁ hd => hn ?_⟩
  obtain ⟨l₁, hl₁, hd⟩ := mem_sharedLog.mp hd
  exact ⟨t₁, screen, o₁, l₁, hl₁, (hh l₁ _).mp hd⟩

theorem noted_iff (hh : ∀ l e, (l, e) ∈ history ↔ e ∈ (w.apps l).log) {u : Option UUID} {e : Event} :
    e ∈ sharedLog w.uid u history ↔ w.Noted u e := by
  simp only [mem_sharedLog, hh, Noted]

/-- In the order of a query the texts that it sorts by are in order. -/
theorem text_le_of_sortKey_le {field : String} {d d' : Path × Dictionary} {t t' : String}
    (h : d.2.lookup field = some (.string t)) (h' : d'.2.lookup field = some (.string t'))
    (hle : sortKey field d' ≤ sortKey field d) : t' ≤ t := by
  rw [sortKey, sortKey, h, h', Prod.Lex.toLex_le_toLex] at hle
  rcases hle with hlt | ⟨heq, -⟩
  · exact (Sum.Lex.inr_lt_inr_iff.mp hlt).le
  · exact (Sum.inr_injective (toLex.injective heq)).le

theorem sortKey_comment (collection : Path) (id : String) (comment : Comment) :
    sortKey "commentMadeDate" (collection ++ [id], comment.document) = toLex
      (toLex (.inr comment.commentMadeDate), id) := by
  have hl : comment.document.lookup "commentMadeDate" = some (.string comment.commentMadeDate) := rfl
  simp [sortKey, hl, FieldValue.key]

/-- The query lists the words of the board. -/
theorem Ledger.wordList (h : w.Ledger) (hI : w.Images)
    (hh : ∀ l e, (l, e) ∈ history ↔ e ∈ (w.apps l).log) (l : L) :
    WordList (sharedLog w.uid (w.uid l) history)
      ((getDocuments w.cloud.documents (COLLECTION_BOARD (w.uid l)) "writtenTime" true).map
        fun d => Word.ofDictionary d.2) := by
  -- a listed document is the one of a word that was written and not removed
  have row {d : Path × Dictionary}
    (hd : d ∈ getDocuments w.cloud.documents (COLLECTION_BOARD (w.uid l)) "writtenTime" true) :
      ∃ word time u f, d = (COLLECTION_BOARD (w.uid l) ++ [word.uid], word.document time u f) ∧
        w.Wrote (w.uid l) word time u f ∧ ¬ w.Removed (w.uid l) word.uid := by
    obtain ⟨p, d⟩ := d
    obtain ⟨hlook, hin, -⟩ := mem_getDocuments.mp hd
    obtain ⟨id, rfl⟩ := inCollection_iff.mp hin
    obtain ⟨word, time, u, f, rfl, rfl, hw, hn⟩ := (h.words l id d).mp hlook
    exact ⟨word, time, u, f, rfl, hw, hn⟩
  constructor
  case mem =>
    intro word
    rw [List.mem_map]
    constructor
    · rintro ⟨d, hd, rfl⟩
      obtain ⟨saved, time, u, f, rfl, hw, hn⟩ := row hd
      exact hI.listed hh hw hn
    · rintro ⟨saved, he, -, -, ⟨t, time, o, hset⟩, hn⟩
      have hu : word.uid = saved.uid := by rw [he]
      have hlook := (h.words l saved.uid _).mpr ⟨saved, time, word.imageUrl, word.imageFileName, rfl, rfl,
        ⟨t, o, (noted_iff hh).mp hset⟩, fun ⟨t₁, screen, o₁, hd⟩ =>
          hn t₁ screen o₁ (hu ▸ (noted_iff hh).mpr hd)⟩
      exact ⟨_, mem_getDocuments.mpr ⟨hlook, inCollection_append _ _, rfl⟩, he.symm⟩
  case nodup =>
    rw [List.map_map, List.Nodup, List.pairwise_map]
    refine (List.pairwise_map.mp (Store.keys_query w.cloud.documents)).imp_of_mem fun hd hd' hne he => hne ?_
    obtain ⟨word, time, u, f, rfl, -⟩ := row hd
    obtain ⟨word', time', u', f', rfl, -⟩ := row hd'
    exact congrArg (COLLECTION_BOARD (w.uid l) ++ [·]) he
  case newest =>
    refine exists_forall₂_map (P := fun time d => d.2.lookup "writtenTime" = some (.string time))
      (fun d hd => ?_)
      (sorted_getDocuments ..) fun d d' t t' hs ht ht' => text_le_of_sortKey_le ht ht' hs
    obtain ⟨word, time, u, f, rfl, ⟨t, o, hw⟩, -⟩ := row hd
    exact ⟨time, rfl, word, rfl, t, o, (noted_iff hh).mpr hw⟩

/-- The query lists the comments of a word. -/
theorem Remarks.commentList (h : w.Remarks) (hh : ∀ l e, (l, e) ∈ history ↔ e ∈ (w.apps l).log)
    (l : L) {id : String}
    (hid : IsUUID id) : CommentList (sharedLog w.uid (w.uid l) history) id
      ((getDocuments w.cloud.documents (commentCollection (w.uid l) id) "commentMadeDate" false).map
        fun d => Comment.ofDictionary d.2) := by
  let row (x : String × Comment) : Path × Dictionary :=
    (commentCollection (w.uid l) id ++ [x.1], x.2.document)
  have hmem {x : String × Comment} :
      row x ∈ getDocuments w.cloud.documents (commentCollection (w.uid l) id) "commentMadeDate" false ↔
        AddsComment (sharedLog w.uid (w.uid l) history) id x.1 x.2 := by
    rw [mem_getDocuments]
    refine (and_iff_left ⟨inCollection_append _ _, rfl⟩).trans ((h.comments l id x.1 _ hid).trans ⟨?_, ?_⟩)
    · rintro ⟨comment, he, t, screen, o, hx⟩
      obtain rfl : x.2 = comment := by simpa using congrArg Comment.ofDictionary he
      exact ⟨t, screen, o, (noted_iff hh).mpr hx⟩
    · rintro ⟨t, screen, o, hx⟩
      exact ⟨x.2, rfl, t, screen, o, (noted_iff hh).mp hx⟩
  have hrange : getDocuments w.cloud.documents (commentCollection (w.uid l) id) "commentMadeDate" false ∈
      Set.range (List.map row) := by
    rw [Set.range_list_map]
    rintro ⟨p, d⟩ hd
    obtain ⟨hlook, hin, -⟩ := mem_getDocuments.mp hd
    obtain ⟨c, rfl⟩ := inCollection_iff.mp hin
    obtain ⟨comment, rfl, -⟩ := (h.comments l id c d hid).mp hlook
    exact ⟨(c, comment), rfl⟩
  obtain ⟨made, hmade⟩ := hrange
  have hinj : Function.Injective row := by
    rintro ⟨c, comment⟩ ⟨c', comment'⟩ he
    simp only [row, Prod.mk.injEq, List.append_cancel_left_eq, List.cons.injEq, and_true] at he
    rw [he.1, ← Comment.ofDictionary_document comment, he.2, Comment.ofDictionary_document]
  refine ⟨made, ?_, ?_, fun x => ?_, ?_⟩
  · rw [← hmade, List.map_map]
    rfl
  · have hkeys : ((made.map row).map Prod.fst).Nodup := hmade ▸ Store.keys_query _
    rw [List.map_map] at hkeys
    refine List.Nodup.of_map (fun c => commentCollection (w.uid l) id ++ [c]) ?_
    rwa [List.map_map]
  · rw [← hmem, ← hmade, List.mem_map_of_injective hinj]
  · have hs := sorted_getDocuments w.cloud.documents (commentCollection (w.uid l) id) "commentMadeDate" false
    rw [← hmade, List.pairwise_map] at hs
    refine hs.imp fun {x y} hxy => ?_
    have hle : sortKey "commentMadeDate" (row x) ≤ sortKey "commentMadeDate" (row y) := hxy
    rw [sortKey_comment, sortKey_comment, Prod.Lex.toLex_le_toLex] at hle
    rw [Prod.Lex.toLex_le_toLex]
    exact hle.imp Sum.Lex.inr_lt_inr_iff.mp fun ⟨he, hi⟩ => ⟨Sum.inr_injective (toLex.injective he), hi⟩

/-! ## What launches keep -/

/-- What the launches have made together. -/
structure Shares (w : World L) : Prop where
  valid : w.Valid
  images : w.Images
  ledger : w.Ledger
  remarks : w.Remarks

theorem Start.shares (h : w.Start)
    (hd : ∀ l p, COLLECTION_BOARD (w.uid l) <+: p → w.cloud.documents.lookup p = none)
    (ho : ∀ l p, imageReference (w.uid l) "" <+: p → w.cloud.objects.lookup p = none) : w.Shares := by
  have hlog : ∀ l, (w.apps l).log = [] := fun l => by rw [h l]; rfl
  have hnet : ∀ l, (w.apps l).net = [] := fun l => by rw [h l]; rfl
  have noted : ∀ u e, ¬ w.Noted u e := by
    rintro u e ⟨l, -, he⟩
    rw [hlog] at he
    cases he
  have hboard : ∀ l, (w.view l).board = [] := fun l => by rw [State.board, World.view, hlog]; rfl
  refine ⟨h.valid, ?_, ?_, ?_⟩
  · constructor
    case saves =>
      intro l sheet word he
      rw [hlog] at he
      cases he
    case uploads =>
      intro l t word f data u he
      rw [hlog] at he
      cases he
    case apart =>
      intro l l' hne e he
      rw [hboard] at he
      cases he
    case objects =>
      intro l f o hf hx
      have hp := imageReference_prefix (w.uid l) f
      rw [ho l _ hp] at hx
      cases hx
    case carried =>
      intro l p hp
      rw [hnet] at hp
      cases hp
    case written =>
      intro l t word time u f o he
      rw [hlog] at he
      cases he
  · constructor
    case words =>
      intro l id d
      rw [hd l _ (List.prefix_append ..)]
      constructor
      · intro hx
        cases hx
      · rintro ⟨_, _, _, _, _, _, ⟨_, _, hn⟩, -⟩
        exact absurd hn (noted _ _)
    case removed =>
      rintro l id ⟨t, screen, o, hn⟩
      exact absurd hn (noted _ _)
    case shown =>
      rintro l screen word ⟨d, hs, -⟩
      rw [h l] at hs
      cases hs
    case arr =>
      intro l word hw
      rw [h l] at hw
      cases hw
    case replies =>
      intro l p hp
      rw [hnet] at hp
      cases hp
  · constructor
    case comments =>
      intro l id c d hid
      rw [hd l _ (by rw [commentCollection_uuid _ hid, List.append_assoc]; exact List.prefix_append ..)]
      constructor
      · intro hx
        cases hx
      · rintro ⟨_, _, _, _, _, hn⟩
        exact absurd hn (noted _ _)
    case used =>
      rintro u id c comment ⟨t, screen, o, hn⟩
      exact absurd hn (noted _ _)
    case sent | unsent =>
      intro l p hp
      rw [hnet] at hp
      cases hp
    case distinct =>
      intro l l' p hp
      rw [hnet] at hp
      cases hp

variable [DecidableEq L]

theorem Shares.move (h : w.Shares) {l : L} {s' : State} (hm : Move (w.view l) s') : (w.put l s').Shares :=
  ⟨h.valid.move hm, h.images.move h.valid hm, h.ledger.move h.valid hm, h.remarks.move h.ledger h.valid hm⟩

theorem Shares.moves (h : w.Shares) {l : L} {s' : State} (hm : Moves (w.view l) s') :
    (w.put l s').Shares := by
  induction hm with
  | refl => rwa [put_view]
  | @tail s₁ s₂ _ hm ih =>
    have hm : Move ((w.put l s₁).view l) s₂ := (view_put w l s₁).symm ▸ hm
    have hs := ih.move hm
    rwa [put_put] at hs

end World

theorem Moves.shows {s s' : State} (hm : Moves s s') (hs : Screens s) {screen : Nat} {word : Word}
    (h : s.app.Shows screen word) : s'.app.Shows screen word := by
  induction hm with
  | refl => exact h
  | tail hm h' ih => exact h'.shows (Moves.screens hm hs) ih

/-! ## Places in the history -/

namespace Timeline

variable {L : Type} {T T' : Timeline L} {d : Date} {l₀ : L} {a : Action} {events : List Event}

theorem Took.events_eq (hk : T.Took T' d l₀ a events) : T'.events = T.events ++ events.map (l₀, ·) := by
  rw [Timeline.events, hk.history, List.map_append, List.map_map]
  rfl

/-- What is at one place stays there. -/
theorem Answered.mono (hk : T.Took T' d l₀ a events) {l : L} {t m : Nat} {call : Call} {P : List Event → Prop}
    (h : T.Answered l t call m P) (hm : m ≤ T.events.length) {m' : Nat} (hm' : m ≤ m') :
    T'.Answered l t call m' P := by
  obtain ⟨i, n, o, hi, hn, hissued, hserved, hP⟩ := h
  have hu : T'.world.uid = T.world.uid := funext hk.uid
  refine ⟨i, n, o, hi, hn.trans_le hm', ?_, ?_, ?_⟩
  · rwa [hk.events_eq, List.getElem?_append_left (by omega)]
  · rwa [hk.events_eq, List.getElem?_append_left (by omega)]
  · rwa [hk.events_eq, List.take_append_of_le_length (by omega), hu]

/-- What the answers in flight and the lists handed over so far are. -/
structure Linear (T : Timeline L) : Prop where
  shares : T.world.Shares
  log : ∀ l e, (l, e) ∈ T.events ↔ e ∈ (T.world.apps l).log
  sent : ∀ l, ∀ p ∈ (T.world.apps l).net, .issued p.ticket p.call ∈ (T.world.apps l).log
  words : ∀ l, ∀ p ∈ (T.world.apps l).net, ∀ documents k,
  p.call = .loadData → p.answer = some ⟨.documents documents, k⟩ →
    T.Answered l p.ticket .loadData T.events.length fun log =>
      WordList log (documents.map fun d => Word.ofDictionary d.2)
  comments : ∀ l, ∀ p ∈ (T.world.apps l).net, ∀ screen id documents k, p.call = .reloadComment screen id →
    p.answer = some ⟨.documents documents, k⟩ → T.Answered l p.ticket
      (.reloadComment screen id) T.events.length
      fun log => CommentList log id (documents.map fun d => Comment.ofDictionary d.2)
  loaded : ∀ m l t k words, T.events[m]? = some (l, .loaded t k words) →
    T.Answered l t .loadData m fun log => WordList log words
  reloaded : ∀ m l screen t k comments, T.events[m]? = some (l, .reloaded screen t k comments) →
    ∃ word, (T.world.apps l).Shows screen word ∧
      T.Answered l t (.reloadComment screen word.uid) m fun log => CommentList log word.uid comments

theorem Linear.named (h : T.Linear) (l : L) : (T.world.apps l).Named := by
  intro p hp w hw
  obtain ⟨e, he, ha, -⟩ := (h.shares.valid.pipeline l).pending p hp w hw
  exact ha.uid ▸ ((h.shares.valid.pipeline l).uid e he).2

/-- An answer that lists documents was there before the step, or the step serves its query. -/
theorem Took.answer (hk : T.Took T' d l₀ a events) (h : T.Linear) {l : L} {p : InFlight}
    (hp : p ∈ (T'.world.apps l).net) {documents : List (Path × Dictionary)} {k : Nat}
    (ha : p.answer = some ⟨.documents documents, k⟩) : p ∈ (T.world.apps l).net ∨
      ∃ collection field descending o, p.call.request (T.world.uid l) = some
        (.getDocuments collection field descending) ∧
        documents = getDocuments T.world.cloud.documents collection field descending ∧
        ⟨p.ticket, p.call, none⟩ ∈ (T.world.apps l).net ∧
        T'.events[T.events.length]? = some (l, .served p.ticket p.call (.success o)) := by
  by_cases hl : l = l₀
  · subst hl
    have hact := hk.act
    generalize hb : a.readingClock d = b at hact
    by_cases hs : ∃ t outcome, b = .serve t outcome
    · obtain ⟨t, outcome, rfl⟩ := hs
      obtain ⟨⟨t, call, answer⟩, hq, r, rfl, hr, hs⟩ := act_serve hact
      have happ : T'.world.apps l = ((T.world.view l).serve ⟨t, call, none⟩ r outcome).app :=
        congrArg State.app hs
      rw [happ] at hp
      rcases List.mem_append.mp hp with hp | hp
      · exact .inl (App.mem_take hp)
      · cases List.mem_singleton.mp hp
        obtain ⟨collection, field, descending, rfl, hd⟩ :=
          serve_reply (congrArg Answer.reply (Option.some.inj ha))
        have hevents : events = [.served t call outcome] :=
          List.append_cancel_left (hk.log.symm.trans (congrArg App.log happ))
        cases outcome with
        | failure => cases ha
        | success o =>
          refine .inr ⟨collection, field, descending, o, hr, hd, hq, ?_⟩
          rw [hk.events_eq, hevents]
          simp
    · rcases (act_adds (h.named l) hact fun t outcome e => hs ⟨t, outcome, e⟩).net p hp with hp | ⟨hn, -⟩
      · exact .inl hp
      · rw [hn] at ha
        cases ha
  · rw [hk.others l hl] at hp
    exact .inl hp

/-- The place where a request that has just been served was sent. -/
theorem Linear.answered (h : T.Linear) (hk : T.Took T' d l₀ a events) {l : L} {p : InFlight} {o : String}
    (hp : ⟨p.ticket, p.call, none⟩ ∈ (T.world.apps l).net)
    (hn : T'.events[T.events.length]? = some (l, .served p.ticket p.call (.success o)))
    {P : List Event → Prop}
    (hP : P (sharedLog T.world.uid (T.world.uid l) T.events)) :
    T'.Answered l p.ticket p.call T'.events.length P := by
  obtain ⟨i, hi⟩ := List.mem_iff_getElem?.mp ((h.log l _).mpr (h.sent l _ hp))
  have hlt : i < T.events.length := (List.getElem?_eq_some_iff.mp hi).1
  have hlt' : T.events.length < T'.events.length := (List.getElem?_eq_some_iff.mp hn).1
  have hu : T'.world.uid = T.world.uid := funext hk.uid
  refine ⟨i, T.events.length, o, hlt, hlt', ?_, hn, ?_⟩
  · rwa [hk.events_eq, List.getElem?_append_left hlt]
  · rwa [hk.events_eq, List.take_left, hu]

/-- An event after the step was there before, or the step notes it. -/
theorem Took.event_cases (hk : T.Took T' d l₀ a events) {m : Nat} {l : L}
    {e : Event} (he : T'.events[m]? = some (l, e)) :
    m < T.events.length ∧ T.events[m]? = some (l, e) ∨ T.events.length ≤ m ∧ l = l₀ ∧ e ∈ events := by
  rw [hk.events_eq] at he
  by_cases hm : m < T.events.length
  · exact .inl ⟨hm, by rwa [List.getElem?_append_left hm] at he⟩
  · rw [List.getElem?_append_right (by omega)] at he
    obtain ⟨e', he', heq⟩ := List.mem_map.mp (List.mem_of_getElem? he)
    cases heq
    exact .inr ⟨by omega, rfl, he'⟩

theorem Took.length_le (hk : T.Took T' d l₀ a events) : T.events.length ≤ T'.events.length := by
  simp [hk.events_eq]

theorem Linear.step [DecidableEq L] (h : T.Linear) (hs : T.step (d, l₀, a) = some T') : T'.Linear := by
  obtain ⟨events, hk⟩ := took_of_step (h.named l₀) hs
  have hworld : ∃ s', T'.world = T.world.put l₀ s' ∧ Moves (T.world.view l₀) s' := by
    obtain ⟨w, hw, rfl⟩ := Option.map_eq_some_iff.mp hs
    obtain ⟨s', -, rfl, hm⟩ := h.shares.valid.step_cases hw
    exact ⟨s', rfl, hm⟩
  obtain ⟨s', hput, hmoves⟩ := hworld
  constructor
  case shares => exact hput ▸ h.shares.moves hmoves
  case log =>
    intro l e
    rw [hk.events_eq, List.mem_append, h.log]
    constructor
    · rintro (he | he)
      · exact hk.kept he
      · obtain ⟨e', he', heq⟩ := List.mem_map.mp he
        cases heq
        rw [hk.log]
        exact List.mem_append_right _ he'
    · intro he
      rcases hk.mem_log he with he | ⟨rfl, he⟩
      · exact .inl he
      · exact .inr (List.mem_map_of_mem he)
  case sent =>
    intro l p hp
    by_cases hl : l = l₀
    · subst hl
      rcases act_net (h.named l) hk.act hp with hp | ⟨-, hi⟩ | ⟨q, hq, ht, hc, -⟩
      · exact hk.kept (h.sent l p hp)
      · exact hi
      · rw [ht, hc]
        exact hk.kept (h.sent l q hq)
    · rw [hk.others l hl] at hp
      exact hk.kept (h.sent l p hp)
  case words =>
    intro l p hp documents k hc ha
    rcases hk.answer h hp ha with hp | ⟨collection, field, descending, o, hr, rfl, hq, hn⟩
    · exact (h.words l p hp documents k hc ha).mono hk le_rfl hk.length_le
    · rw [hc] at hr
      cases hr
      exact hc ▸ h.answered hk hq hn (h.shares.ledger.wordList h.shares.images h.log l)
  case comments =>
    intro l p hp screen id documents k hc ha
    rcases hk.answer h hp ha with hp | ⟨collection, field, descending, o, hr, rfl, hq, hn⟩
    · exact (h.comments l p hp screen id documents k hc ha).mono hk le_rfl hk.length_le
    · obtain ⟨word, rfl, hw⟩ :=
        h.shares.ledger.known h.shares.valid hq (by rw [hc]; rfl) (.inr (.inl ⟨screen, hc⟩))
      rw [hc] at hr
      cases hr
      exact hc ▸ h.answered hk hq hn (h.shares.remarks.commentList h.log l (hw.isUUID h.shares.valid))
  case loaded =>
    intro m l t k words he
    rcases hk.event_cases he with ⟨hm, he⟩ | ⟨hm, rfl, he⟩
    · exact (h.loaded m l t k words he).mono hk hm.le le_rfl
    · obtain ⟨p, hp, documents, k', rfl, hc, ha, rfl⟩ := hk.explained _ he
      exact (h.words l p hp documents k' hc ha).mono hk le_rfl hm
  case reloaded =>
    have shows {l : L} {screen : Nat} {word : Word} (hw : (T.world.apps l).Shows screen word) :
        (T'.world.apps l).Shows screen word := by
      by_cases hl : l = l₀
      · subst hl
        rw [hput, World.apps_put]
        exact Moves.shows hmoves (h.shares.valid.screens l) hw
      · rwa [hk.others l hl]
    intro m l screen t k comments he
    rcases hk.event_cases he with ⟨hm, he⟩ | ⟨hm, rfl, he⟩
    · obtain ⟨word, hw, hA⟩ := h.reloaded m l screen t k comments he
      exact ⟨word, shows hw, hA.mono hk hm.le le_rfl⟩
    · obtain ⟨p, hp, id, documents, k', rfl, hc, ha, rfl⟩ := hk.explained _ he
      have hA := (h.shares.valid.screens l).calls p hp (by rw [hc]; rfl)
      rw [hc] at hA
      obtain ⟨word, hw, rfl⟩ := hA
      exact ⟨word, shows hw, (h.comments l p hp screen word.uid documents k' hc ha).mono hk le_rfl hm⟩

theorem Start.linear (h : T.Start)
    (ho : ∀ l p, imageReference (T.world.uid l) "" <+: p → T.world.cloud.objects.lookup p = none) :
    T.Linear := by
  have he : T.events = [] := by rw [Timeline.events, h.history]; rfl
  constructor
  case shares => exact h.launches.shares h.documents ho
  case log =>
    intro l e
    rw [he, h.launches l]
    simp [App.launch]
  case sent | words | comments =>
    intro l p hp
    rw [h.launches l] at hp
    cases hp
  case loaded | reloaded =>
    rw [he]
    simp

theorem Start.run_linear [DecidableEq L] {T₀ : Timeline L} {as : List (Date × L × Action)} (h₀ : T₀.Start)
    (ho : ∀ l p, imageReference (T₀.world.uid l) "" <+: p → T₀.world.cloud.objects.lookup p = none)
    (hr : Runs Timeline.step anyStep T₀ as T) : T.Linear :=
  hr.inv (fun _ _ _ h _ hs => h.step hs) (h₀.linear ho)

end Timeline

variable {L : Type} [DecidableEq L] {T₀ T : Timeline L} {as : List (Date × L × Action)} {m t k : Nat} {l : L}

/-- Every list of words that a launch hands to its completion is the word list that the
launches of its identifier have made together, at a moment between its query and its arrival. -/
theorem shared_words (h₀ : T₀.Start)
    (ho : ∀ l p, imageReference (T₀.world.uid l) "" <+: p → T₀.world.cloud.objects.lookup p = none)
    (hr : Runs Timeline.step anyStep T₀ as T) {words : List Word}
    (hl : T.events[m]? = some (l, .loaded t k words)) :
    T.Answered l t .loadData m fun log => WordList log words :=
  (h₀.run_linear ho hr).loaded m l t k words hl

/-- Every list of comments that a screen gets is the list of the comments that the launches
of its identifier have added to its word, at a moment between its query and its arrival. -/
theorem shared_comments (h₀ : T₀.Start)
    (ho : ∀ l p, imageReference (T₀.world.uid l) "" <+: p → T₀.world.cloud.objects.lookup p = none)
    (hr : Runs Timeline.step anyStep T₀ as T) {screen : Nat} {comments : List Comment}
    (hl : T.events[m]? = some (l, .reloaded screen t k comments)) :
    ∃ word, (T.world.apps l).Shows screen word ∧
      T.Answered l t (.reloadComment screen word.uid) m fun log => CommentList log word.uid comments :=
  (h₀.run_linear ho hr).reloaded m l screen t k comments hl

/-! ## Two launches -/

/-- Two launches with one identifier, and an empty cloud. -/
def twoLaunches : Timeline Bool := ⟨World.empty fun _ => some phone, ⟨686286000⟩, []⟩

/-- The list is fetched, and a comment is added to its first word. -/
def readAndComment : List Action :=
  .viewDidLoad :: fetchActions 0 ++ [.didSelectRow 0, .addComment, .saveComment (some "meow") "" "c1",
    .serve 4 (.success ""), .answer 4 ""] ++ fetchActions 5

/-- The one launch adds a word, then the other comments on it. -/
def addThenComment : List (Date × Bool × Action) :=
  ((addActions 0 "cat" uuid₁ uuid₂ "").map (false, ·) ++ readAndComment.map (true, ·)).map fun x =>
    (⟨686286005⟩, x)

theorem twoLaunches_start : twoLaunches.Start :=
  ⟨fun _ => rfl, fun _ _ _ => AList.lookup_empty _, rfl⟩

theorem addThenComment_facts : ∃ T, Runs Timeline.step anyStep twoLaunches addThenComment T ∧
    T.events[12]? = some (true, .loaded 0 1 [cat]) ∧
    T.events[19]? = some (true, .reloaded 1 5 8 [⟨"meow", "2022-10-01T03:00:05Z"⟩]) :=
  exists_runs (P := fun T => _ ∧ _) (by decide +kernel)

theorem shared_words_cat : ∃ T, Runs Timeline.step anyStep twoLaunches addThenComment T ∧
    T.Answered true 0 .loadData 12 fun log => WordList log [cat] := by
  obtain ⟨T, hr, hl, -⟩ := addThenComment_facts
  exact ⟨T, hr, shared_words twoLaunches_start (fun _ _ _ => AList.lookup_empty _) hr hl⟩

theorem shared_comments_meow : ∃ T, Runs Timeline.step anyStep twoLaunches addThenComment T ∧
    ∃ word, (T.world.apps true).Shows 1 word ∧ T.Answered true 5 (.reloadComment 1 word.uid) 19 fun log =>
      CommentList log word.uid [⟨"meow", "2022-10-01T03:00:05Z"⟩] := by
  obtain ⟨T, hr, -, hl⟩ := addThenComment_facts
  exact ⟨T, hr, shared_comments twoLaunches_start (fun _ _ _ => AList.lookup_empty _) hr hl⟩

end BlindBoard
