import BlindBoard.Proof.Uploads
import BlindBoard.Proof.Comments
import BlindBoard.Proof.History

/-!
# Documents of a board that launches share

What the documents of an identifier are, in terms of the requests that its
launches have carried out, whichever launch sent them: the words that were
written and not removed (`World.Ledger`), and the comments that were added, each
under an ID of its own (`World.Remarks`).
-/

namespace BlindBoard

open Lib Spec

/-- A word of the list was in it before a move, or in the answer that the move assigns. -/
theorem Move.arr {s s' : State} (hm : Move s s') {word : Word} (hw : word ∈ s'.app.arr) : word ∈ s.app.arr ∨
    ∃ p ∈ s.app.net, ∃ documents k, p.call = .loadData ∧ p.answer = some ⟨.documents documents, k⟩ ∧
      ∃ d ∈ documents, Word.ofDictionary d.2 = word := by
  cases hm with
  | loaded hp hc ha => exact .inr ⟨_, hp, _, _, hc, ha, List.mem_map.mp hw⟩
  | saved sheet title content uid url => cases url <;> exact .inl hw
  | _ => exact .inl hw

namespace World

variable {L : Type} {w : World L}

/-- A word that was written, in a launch of `u`. -/
def Wrote (w : World L) (u : Option UUID) (word : Word) (time imageUrl imageFileName : String) : Prop :=
  ∃ t o, w.Noted u (.served t (.setData word time imageUrl imageFileName) (.success o))

/-- A word whose document was deleted. -/
def Removed (w : World L) (u : Option UUID) (id : String) : Prop :=
  ∃ t screen o, w.Noted u (.served t (.deleteDocument screen id) (.success o))

/-- A comment that was added. -/
def Remarked (w : World L) (u : Option UUID) (id autoID : String) (comment : Comment) : Prop :=
  ∃ t screen o, w.Noted u (.served t (.addDocument screen id autoID comment) (.success o))

/-- A word that some launch of `u` has written, as it is listed. -/
def Known (w : World L) (u : Option UUID) (word : Word) : Prop :=
  ∃ saved time, w.Wrote u saved time word.imageUrl word.imageFileName ∧
    word = { saved with imageUrl := word.imageUrl, imageFileName := word.imageFileName }

/-- The words' documents are those that were written and not removed, and what the launches
show is among what was written. -/
structure Ledger (w : World L) : Prop where
  words : ∀ l id d, w.cloud.documents.lookup (COLLECTION_BOARD (w.uid l) ++ [id]) = some d ↔
    ∃ word time u f, word.uid = id ∧ d = word.document time u f ∧ w.Wrote (w.uid l) word time u f ∧
      ¬ w.Removed (w.uid l) id
  removed : ∀ l id, w.Removed (w.uid l) id → ∃ word time u f, word.uid = id ∧ w.Wrote (w.uid l) word time u f
  shown : ∀ l screen word, (w.apps l).Shows screen word → w.Known (w.uid l) word
  arr : ∀ l, ∀ word ∈ (w.apps l).arr, w.Known (w.uid l) word
  replies : ∀ l, ∀ p ∈ (w.apps l).net, ∀ documents k, p.call = .loadData →
    p.answer = some ⟨.documents documents, k⟩ →
    ∀ d ∈ documents, w.Known (w.uid l) (Word.ofDictionary d.2)

/-- The comments' documents are those that were added, each under an ID of its own. -/
structure Remarks (w : World L) : Prop where
  comments : ∀ l id c d, IsUUID id →
    (w.cloud.documents.lookup (commentCollection (w.uid l) id ++ [c]) = some d ↔
      ∃ comment, d = comment.document ∧ w.Remarked (w.uid l) id c comment)
  used : ∀ u id c comment, w.Remarked u id c comment → c ∈ w.used
  sent : ∀ l, ∀ p ∈ (w.apps l).net, ∀ c, p.call.autoID = some c → c ∈ w.used
  unsent : ∀ l, ∀ p ∈ (w.apps l).net, ∀ c, p.call.autoID = some c → p.answer = none → ∀ u id comment,
  ¬ w.Remarked u id c comment
  distinct : ∀ l l', ∀ p ∈ (w.apps l).net, ∀ p' ∈ (w.apps l').net, ∀ c,
  p.call.autoID = some c → p'.call.autoID = some c →
    l = l' ∧ p.ticket = p'.ticket

theorem Wrote.isUUID (hV : w.Valid) {u : Option UUID} {word : Word} {time imageUrl f : String}
    (h : w.Wrote u word time imageUrl f) : IsUUID word.uid := by
  obtain ⟨t, o, l, -, he⟩ := h
  obtain ⟨e, hb, hu, -⟩ := hV.written l t word time imageUrl f o he
  exact hu ▸ ((hV.pipeline l).uid e hb).2

theorem Known.isUUID (hV : w.Valid) {u : Option UUID} {word : Word} (h : w.Known u word) :
    IsUUID word.uid := by
  obtain ⟨saved, time, hw, he⟩ := h
  rw [he]
  exact hw.isUUID hV

/-- The word of a call that a screen has sent. -/
theorem Ledger.known (h : w.Ledger) (hV : w.Valid) {l₀ : L} {p : InFlight}
    (hp : p ∈ (w.apps l₀).net) (hw : p.call.word = none)
    {id : String}
    (hc : (∃ screen, p.call = .deleteDocument screen id) ∨ (∃ screen, p.call = .reloadComment screen id) ∨
      ∃ screen c comment, p.call = .addDocument screen id c comment) : ∃ word,
        word.uid = id ∧ w.Known (w.uid l₀) word := by
  have hA := (hV.screens l₀).calls p hp hw
  rcases hc with ⟨screen, hc⟩ | ⟨screen, hc⟩ | ⟨screen, c, comment, hc⟩ <;>
  · rw [hc] at hA
    obtain ⟨word, hs, rfl⟩ := hA
    exact ⟨word, rfl, h.shown l₀ screen word hs⟩

/-- The word of a listed document. -/
theorem Ledger.known_of_lookup (h : w.Ledger) {l : L} {id : String} {d : Dictionary}
    (hd : w.cloud.documents.lookup (COLLECTION_BOARD (w.uid l) ++ [id]) = some d) :
    w.Known (w.uid l) (Word.ofDictionary d) := by
  obtain ⟨word, time, u, f, -, rfl, hw, -⟩ := (h.words l id d).mp hd
  exact ⟨word, time, hw, rfl⟩

/-- What the served request adds to what was carried out. -/
structure Serves (w v : World L) (u : Option UUID) (t : Nat) (call : Call) (o : Outcome) : Prop where
  noted : ∀ u' t' call' o', v.Noted u' (.served t' call' o') ↔
    w.Noted u' (.served t' call' o') ∨ u = u' ∧ t' = t ∧ call' = call ∧ o' = o

namespace Serves

variable {v : World L} {u u' : Option UUID} {t : Nat} {call : Call} {o : Outcome} (h : Serves w v u t call o)
include h

theorem wrote {word : Word} {time url f : String} : v.Wrote u' word time url f ↔
    w.Wrote u' word time url f ∨ u = u' ∧ call = .setData word time url f ∧ ∃ x, o = .success x := by
  simp only [Wrote, h.noted, exists_or]
  refine or_congr_right ⟨?_, ?_⟩
  · rintro ⟨t, x, hu, rfl, rfl, rfl⟩
    exact ⟨hu, rfl, x, rfl⟩
  · rintro ⟨hu, rfl, x, rfl⟩
    exact ⟨t, x, hu, rfl, rfl, rfl⟩

theorem removed {id : String} : v.Removed u' id ↔
    w.Removed u' id ∨ u = u' ∧ ∃ screen x, call = .deleteDocument screen id ∧ o = .success x := by
  simp only [Removed, h.noted, exists_or]
  refine or_congr_right ⟨?_, ?_⟩
  · rintro ⟨t, screen, x, hu, rfl, rfl, rfl⟩
    exact ⟨hu, screen, x, rfl, rfl⟩
  · rintro ⟨hu, screen, x, rfl, rfl⟩
    exact ⟨t, screen, x, hu, rfl, rfl, rfl⟩

theorem remarked {id c : String} {comment : Comment} : v.Remarked u' id c comment ↔
    w.Remarked u' id c comment ∨ u = u' ∧ ∃ screen x, call = .addDocument screen id c comment ∧
    o = .success x := by
  simp only [Remarked, h.noted, exists_or]
  refine or_congr_right ⟨?_, ?_⟩
  · rintro ⟨t, screen, x, hu, rfl, rfl, rfl⟩
    exact ⟨hu, screen, x, rfl, rfl⟩
  · rintro ⟨hu, screen, x, rfl, rfl⟩
    exact ⟨t, screen, x, hu, rfl, rfl, rfl⟩

end Serves

variable [DecidableEq L] {l₀ : L} {s' : State}

/-- A word that is being written is not the word of another add. -/
theorem Wrote.ne_of_sent (hV : w.Valid) {u : Option UUID} {word : Word} {time imageUrl f : String}
    (h : w.Wrote u word time imageUrl f) {t : Nat} {word' : Word} {time' u' f' : String}
    (hp : ⟨t, .setData word' time' u' f', none⟩ ∈ (w.apps l₀).net) : word.uid ≠ word'.uid := by
  obtain ⟨t, o, l, -, he⟩ := h
  exact (hV.written_once he hp rfl rfl).2.symm

/-- A move that serves no request changes neither the cloud nor what was carried out. -/
theorem served_cases (hm : Move (w.view l₀) s') :
    (s'.cloud = w.cloud ∧ ∀ u t call o, (w.put l₀ s').Noted u (.served t call o) ↔
      w.Noted u (.served t call o)) ∨
    ∃ t call r o, ⟨t, call, none⟩ ∈ (w.apps l₀).net ∧ call.request (w.uid l₀) = some r ∧
      s' = (w.view l₀).serve ⟨t, call, none⟩ r o ∧ Serves w (w.put l₀ s') (w.uid l₀) t call o := by
  by_cases hs : ∃ t call r o, ⟨t, call, none⟩ ∈ (w.apps l₀).net ∧ call.request (w.uid l₀) = some r ∧
      s' = (w.view l₀).serve ⟨t, call, none⟩ r o
  · obtain ⟨t, call, r, o, hp, hr, rfl⟩ := hs
    refine .inr ⟨t, call, r, o, hp, hr, rfl, ⟨fun u t' call' o' => ⟨fun h => ?_, ?_⟩⟩⟩
    · rcases noted_put hm h with h | ⟨hl, he⟩
      · exact .inl h
      · rcases List.mem_append.mp he with he | he
        · exact .inl ⟨l₀, hl, he⟩
        · cases List.mem_singleton.mp he
          exact .inr ⟨hl, rfl, rfl, rfl⟩
    · rintro (h | ⟨hl, rfl, rfl, rfl⟩)
      · exact h.mono hm
      · exact ⟨l₀, (uid_put rfl l₀).trans hl,
          by rw [apps_put]; exact List.mem_append_right _ (List.mem_singleton_self _)⟩
  · refine .inl ⟨?_, fun u t call o => ⟨fun h => ?_, fun h => h.mono hm⟩⟩
    · rcases hm.cloud with hc | ⟨⟨t, call, answer⟩, hp, r, o, rfl, hr, rfl⟩
      · exact hc
      · exact absurd ⟨t, call, r, o, hp, hr, rfl⟩ hs
    · rcases noted_put hm h with h | ⟨hl, he⟩
      · exact h
      · rcases hm.served_log he with he | ⟨r, hp, hr, rfl⟩
        · exact ⟨l₀, hl, he⟩
        · exact absurd ⟨t, call, r, o, hp, hr, rfl⟩ hs

theorem Wrote.mono (hm : Move (w.view l₀) s') {u : Option UUID} {word : Word} {time url f : String}
    (h : w.Wrote u word time url f) : (w.put l₀ s').Wrote u word time url f := by
  obtain ⟨t, o, hn⟩ := h
  exact ⟨t, o, hn.mono hm⟩

theorem Known.mono (hm : Move (w.view l₀) s') {u : Option UUID} {word : Word} (h : w.Known u word) :
    (w.put l₀ s').Known u word := by
  obtain ⟨saved, time, hw, he⟩ := h
  exact ⟨saved, time, hw.mono hm, he⟩

/-! ## Words -/

/-- The words after a request for a document: it is for the word, or the word stays. -/
theorem Ledger.words_serve (h : w.Ledger) (hV : w.Valid) {v : World L}
    {t : Nat} {call : Call} {r : Request} {o : Outcome}
    (hp : ⟨t, call, none⟩ ∈ (w.apps l₀).net) (hr : call.request (w.uid l₀) = some r)
    (hn : Serves w v (w.uid l₀) t call o) (l : L) (id : String) (d : Dictionary) :
    (w.cloud.serve r o).1.documents.lookup (COLLECTION_BOARD (w.uid l) ++ [id]) = some d ↔
      ∃ word time u f, word.uid = id ∧ d = word.document time u f ∧ v.Wrote (w.uid l) word time u f ∧
        ¬ v.Removed (w.uid l) id := by
  by_cases hd : r.document = some (COLLECTION_BOARD (w.uid l) ++ [id])
  · have hu : w.uid l = w.uid l₀ :=
      documents_apart (List.prefix_append ..) (Request.Within.document (Call.request_within hr) hd)
    cases o with
    | failure =>
      simp only [hn.wrote, hn.removed, reduceCtorEq, exists_false, and_false, or_false]
      rw [show (w.cloud.serve r .failure).1 = w.cloud by cases r <;> rfl]
      exact h.words l id d
    | success x =>
      cases call with
      | setData word time url f =>
        obtain ⟨e, he, ha, -⟩ := (hV.pipeline l₀).pending _ hp word rfl
        have hid : IsUUID word.uid := ha.uid ▸ ((hV.pipeline l₀).uid e he).2
        cases hr
        have hpath : wordDocument (w.uid l₀) word.uid = COLLECTION_BOARD (w.uid l) ++ [id] :=
          Option.some.inj hd
        obtain rfl : word.uid = id := by
          rw [wordDocument_uuid _ hid, hu] at hpath
          simpa using hpath
        -- it is written for the first time
        have fresh : ∀ {word' : Word} {time' u' f' : String}, word'.uid = word.uid →
            ¬ w.Wrote (w.uid l) word' time' u' f' := fun he hw => hw.ne_of_sent hV hp he
        have hrem : ¬ w.Removed (w.uid l) word.uid := fun hx => by
          obtain ⟨word', time', u', f', he, hw⟩ := h.removed l _ hx
          exact fresh he hw
        rw [← hpath, Cloud.serve, AList.lookup_insert]
        constructor
        · rintro ⟨⟩
          refine ⟨word, time, url, f, rfl, rfl, hn.wrote.mpr (.inr ⟨hu.symm, rfl, x, rfl⟩), fun hx => ?_⟩
          rcases hn.removed.mp hx with hx | ⟨-, screen, -, hc, -⟩
          · exact hrem hx
          · cases hc
        · rintro ⟨word', time', u', f', he, rfl, hw, -⟩
          rcases hn.wrote.mp hw with hw | ⟨-, hc, -⟩
          · exact absurd hw (fresh he)
          · cases hc
            rfl
      | deleteDocument screen id' =>
        obtain ⟨word, rfl, hk⟩ := h.known hV hp rfl (.inl ⟨screen, rfl⟩)
        cases hr
        have hpath : wordDocument (w.uid l₀) word.uid = COLLECTION_BOARD (w.uid l) ++ [id] :=
          Option.some.inj hd
        obtain rfl : word.uid = id := by
          rw [wordDocument_uuid _ (hk.isUUID hV), hu] at hpath
          simpa using hpath
        rw [← hpath, Cloud.serve, AList.lookup_erase]
        constructor
        · intro hx
          cases hx
        · rintro ⟨-, -, -, -, -, -, -, hx⟩
          exact absurd (hn.removed.mpr (.inr ⟨hu.symm, screen, x, rfl, rfl⟩)) hx
      | addDocument screen id' c comment =>
        obtain ⟨word, rfl, hk⟩ := h.known hV hp rfl (.inr (.inr ⟨screen, c, comment, rfl⟩))
        cases hr
        rw [hu] at hd
        exact absurd (Option.some.inj hd) (comment_ne_word _ (hk.isUUID hV))
      | _ => cases hr <;> cases hd
  · rw [serve_documents _ o hd, h.words]
    refine exists_congr fun word => exists_congr fun time => exists_congr fun u => exists_congr fun f => ?_
    refine and_congr_right fun he => and_congr_right fun _ => and_congr ?_ (not_congr ?_)
    · refine (hn.wrote.trans (or_iff_left ?_)).symm
      rintro ⟨hu, rfl, -⟩
      cases hr
      obtain ⟨e, heb, ha, -⟩ := (hV.pipeline l₀).pending _ hp word rfl
      refine hd (congrArg some ?_)
      rw [wordDocument_uuid _ (ha.uid ▸ ((hV.pipeline l₀).uid e heb).2), hu, he]
    · refine (hn.removed.trans (or_iff_left ?_)).symm
      rintro ⟨hu, screen, x, rfl, rfl⟩
      obtain ⟨word', rfl, hk⟩ := h.known hV hp rfl (.inl ⟨screen, rfl⟩)
      cases hr
      refine hd (congrArg some ?_)
      rw [wordDocument_uuid _ (hk.isUUID hV), hu]

theorem Ledger.words_move (h : w.Ledger) (hV : w.Valid) (hm : Move (w.view l₀) s')
    (l : L) (id : String) (d : Dictionary) :
    s'.cloud.documents.lookup (COLLECTION_BOARD (w.uid l) ++ [id]) = some d ↔
      ∃ word time u f, word.uid = id ∧ d = word.document time u f ∧
      (w.put l₀ s').Wrote (w.uid l) word time u f ∧
        ¬ (w.put l₀ s').Removed (w.uid l) id := by
  rcases served_cases hm with ⟨hc, hn⟩ | ⟨t, call, r, o, hp, hr, rfl, hn⟩
  · simp only [hc, Wrote, Removed, hn]
    exact h.words l id d
  · exact h.words_serve hV hp hr hn l id d

theorem Ledger.move (h : w.Ledger) (hV : w.Valid) (hm : Move (w.view l₀) s') : (w.put l₀ s').Ledger := by
  have huid : ∀ l, (w.put l₀ s').uid l = w.uid l := uid_put hm.uid
  constructor
  case words =>
    intro l id d
    rw [huid]
    exact h.words_move hV hm l id d
  case removed =>
    intro l id hx
    rw [huid] at hx ⊢
    have old (hx : w.Removed (w.uid l) id) : ∃ word time u f,
      word.uid = id ∧ (w.put l₀ s').Wrote (w.uid l) word time u f := by
      obtain ⟨word, time, u, f, he, hw⟩ := h.removed l id hx
      exact ⟨word, time, u, f, he, hw.mono hm⟩
    rcases served_cases hm with ⟨-, hn⟩ | ⟨t, call, r, o, hp, -, rfl, hn⟩
    · exact old (by simpa only [Removed, hn] using hx)
    · rcases hn.removed.mp hx with hx | ⟨hu, screen, x, rfl, -⟩
      · exact old hx
      · obtain ⟨word, rfl, saved, time, hw, he⟩ := h.known hV hp rfl (.inl ⟨screen, rfl⟩)
        exact ⟨saved, time, _, _, by rw [he], hu ▸ hw.mono hm⟩
  case shown =>
    intro l screen word hs
    rw [huid]
    refine Known.mono hm ?_
    by_cases hl : l = l₀
    · subst hl
      rw [apps_put] at hs
      obtain ⟨d, hd, rfl⟩ := hs
      rcases hm.details hd with ⟨d₀, h₀, hb, -⟩ | ⟨-, -, -, ha⟩
      · exact h.shown l screen _ ⟨d₀, h₀, hb.symm⟩
      · exact h.arr l _ ha
    · rw [apps_put_ne w s' hl] at hs
      exact h.shown l screen word hs
  case arr =>
    intro l word ha
    rw [huid]
    refine Known.mono hm ?_
    by_cases hl : l = l₀
    · subst hl
      rw [apps_put] at ha
      rcases hm.arr ha with ha | ⟨p, hp, documents, k, hc, hn, d, hd, rfl⟩
      · exact h.arr l word ha
      · exact h.replies l p hp documents k hc hn d hd
    · rw [apps_put_ne w s' hl] at ha
      exact h.arr l word ha
  case replies =>
    intro l p hp documents k hc hn d hd
    rw [huid]
    refine Known.mono hm ?_
    by_cases hl : l = l₀
    · subst hl
      rw [apps_put] at hp
      rcases hm.answered hp hn with hp | ⟨r, o, -, hr, hreply, -⟩
      · exact h.replies l p hp documents k hc hn d hd
      · obtain ⟨collection, field, descending, rfl, rfl⟩ := serve_reply hreply.symm
        rw [hc] at hr
        cases hr
        obtain ⟨hlook, hin, -⟩ := mem_getDocuments.mp hd
        obtain ⟨id, hid⟩ := inCollection_iff.mp hin
        exact h.known_of_lookup (hid ▸ hlook)
    · rw [apps_put_ne w s' hl] at hp
      exact h.replies l p hp documents k hc hn d hd

/-! ## Comments -/

omit [DecidableEq L] in
/-- The comments after a request for a document. -/
theorem Remarks.comments_serve (h : w.Remarks) (hL : w.Ledger) (hV : w.Valid)
    {v : World L} {t : Nat} {call : Call}
    {r : Request} {o : Outcome} (hp : ⟨t, call, none⟩ ∈ (w.apps l₀).net)
    (hr : call.request (w.uid l₀) = some r)
    (hn : Serves w v (w.uid l₀) t call o) (l : L) {id : String} (hid : IsUUID id)
    (c : String) (d : Dictionary) :
    (w.cloud.serve r o).1.documents.lookup (commentCollection (w.uid l) id ++ [c]) = some d ↔
      ∃ comment, d = comment.document ∧ v.Remarked (w.uid l) id c comment := by
  by_cases hd : r.document = some (commentCollection (w.uid l) id ++ [c])
  · have hu : w.uid l = w.uid l₀ := by
      refine documents_apart ?_ (Request.Within.document (Call.request_within hr) hd)
      rw [commentCollection_uuid _ hid, List.append_assoc]
      exact List.prefix_append _ _
    cases o with
    | failure =>
      simp only [hn.remarked, reduceCtorEq, exists_false, and_false, or_false]
      rw [show (w.cloud.serve r .failure).1 = w.cloud by cases r <;> rfl]
      exact h.comments l id c d hid
    | success x =>
      rw [hu] at hd
      cases call with
      | setData word time url f =>
        obtain ⟨e, he, ha, -⟩ := (hV.pipeline l₀).pending _ hp word rfl
        cases hr
        have hpath : wordDocument (w.uid l₀) word.uid = _ := Option.some.inj hd
        rw [wordDocument_uuid _ (ha.uid ▸ ((hV.pipeline l₀).uid e he).2)] at hpath
        exact absurd hpath.symm (comment_ne_word _ hid)
      | deleteDocument screen id' =>
        obtain ⟨word, rfl, hk⟩ := hL.known hV hp rfl (.inl ⟨screen, rfl⟩)
        cases hr
        have hpath : wordDocument (w.uid l₀) word.uid = _ := Option.some.inj hd
        rw [wordDocument_uuid _ (hk.isUUID hV)] at hpath
        exact absurd hpath.symm (comment_ne_word _ hid)
      | addDocument screen id' c' comment =>
        obtain ⟨word, rfl, hk⟩ := hL.known hV hp rfl (.inr (.inr ⟨screen, c', comment, rfl⟩))
        cases hr
        obtain ⟨rfl, rfl⟩ := Comments.commentPath_inj (hk.isUUID hV) hid (Option.some.inj hd)
        have fresh : ∀ {comment'}, ¬ w.Remarked (w.uid l) word.uid c' comment' :=
          fun hx => h.unsent l₀ _ hp c' rfl rfl _ _ _ hx
        rw [hu, Cloud.serve, AList.lookup_insert, ← hu]
        constructor
        · rintro ⟨⟩
          exact ⟨comment, rfl, hn.remarked.mpr (.inr ⟨hu.symm, screen, x, rfl, rfl⟩)⟩
        · rintro ⟨comment', rfl, hx⟩
          rcases hn.remarked.mp hx with hx | ⟨-, screen', x', hc, -⟩
          · exact absurd hx fresh
          · cases hc
            rfl
      | _ => cases hr <;> cases hd
  · rw [serve_documents _ o hd, h.comments l id c d hid]
    refine exists_congr fun comment => and_congr_right fun _ => (hn.remarked.trans (or_iff_left ?_)).symm
    rintro ⟨hu, screen, x, rfl, -⟩
    cases hr
    exact hd (by rw [hu]; rfl)

theorem Remarks.move (h : w.Remarks) (hL : w.Ledger) (hV : w.Valid) (hm : Move (w.view l₀) s') :
    (w.put l₀ s').Remarks := by
  have huid : ∀ l, (w.put l₀ s').uid l = w.uid l := uid_put hm.uid
  -- a comment is one that was there, or the one that is served
  have cases {u : Option UUID} {id c : String} {comment : Comment}
    (hx : (w.put l₀ s').Remarked u id c comment) :
      w.Remarked u id c comment ∨ ∃ t call r o, ⟨t, call, none⟩ ∈ (w.apps l₀).net ∧ call.autoID = some c ∧
        s' = (w.view l₀).serve ⟨t, call, none⟩ r o := by
    rcases served_cases hm with ⟨-, hn⟩ | ⟨t, call, r, o, hp, -, hs, hn⟩
    · exact .inl (by simpa only [Remarked, hn] using hx)
    · rcases hn.remarked.mp hx with hx | ⟨-, screen, x, rfl, -⟩
      · exact .inl hx
      · exact .inr ⟨t, _, r, o, hp, rfl, hs⟩
  -- so is a call with an ID
  have sent {l : L} {p : InFlight} (hp : p ∈ ((w.put l₀ s').apps l).net) {c : String}
    (hc : p.call.autoID = some c) :
      (∃ q ∈ (w.apps l).net, q.ticket = p.ticket ∧ q.call = p.call ∧ (p.answer = none → q = p)) ∨
        l = l₀ ∧ p.ticket = (w.apps l₀).next ∧ c ∉ w.used ∧ s'.used = c :: w.used := by
    by_cases hl : l = l₀
    · subst hl
      rw [apps_put] at hp
      rcases hm.autoID hp hc with hq | ⟨ht, hf, hs⟩
      · exact .inl hq
      · exact .inr ⟨rfl, ht, hf, congrArg State.used hs⟩
    · rw [apps_put_ne w s' hl] at hp
      exact .inl ⟨p, hp, rfl, rfl, fun _ => rfl⟩
  constructor
  case comments =>
    intro l id c d hid
    rw [huid]
    rcases served_cases hm with ⟨hc, hn⟩ | ⟨t, call, r, o, hp, hr, rfl, hn⟩
    · change s'.cloud.documents.lookup _ = _ ↔ _
      simp only [hc, Remarked, hn]
      exact h.comments l id c d hid
    · exact h.comments_serve hL hV hp hr hn l hid c d
  case used =>
    intro u id c comment hx
    rcases cases hx with hx | ⟨t, call, r, o, hp, hc, -⟩
    · exact hm.used (h.used u id c comment hx)
    · exact hm.used (h.sent l₀ _ hp c hc)
  case sent =>
    intro l p hp c hc
    rcases sent hp hc with ⟨q, hq, -, hqc, -⟩ | ⟨-, -, -, hu⟩
    · exact hm.used (h.sent l q hq c (hqc ▸ hc))
    · change c ∈ s'.used
      rw [hu]
      exact List.mem_cons_self
  case unsent =>
    intro l p hp c hc hn u id comment hx
    rcases sent hp hc with ⟨q, hq, -, -, hqp⟩ | ⟨-, -, hf, -⟩
    · obtain rfl := hqp hn
      rcases cases hx with hx | ⟨t, call, r, o, hp', hc', rfl⟩
      · exact h.unsent l q hq c hc hn u id comment hx
      · -- the call is served, and no longer waits
        obtain ⟨rfl, ht⟩ := h.distinct l l₀ q hq _ hp' c hc hc'
        rw [apps_put] at hp
        rcases List.mem_append.mp hp with hp | hp
        · exact absurd ht (by simpa using (List.mem_filter.mp hp).2)
        · rw [List.mem_singleton.mp hp] at hn
          cases hn
    · rcases cases hx with hx | ⟨t, call, r, o, hp', hc', -⟩
      · exact hf (h.used u id c comment hx)
      · exact hf (h.sent l₀ _ hp' c hc')
  case distinct =>
    intro l l' p hp p' hp' c hc hc'
    rcases sent hp hc with ⟨q, hq, ht, hqc, -⟩ | ⟨rfl, ht, hf, -⟩ <;>
      rcases sent hp' hc' with ⟨q', hq', ht', hqc', -⟩ | ⟨rfl, ht', hf', -⟩
    · obtain ⟨hl, he⟩ := h.distinct l l' q hq q' hq' c (hqc ▸ hc) (hqc' ▸ hc')
      exact ⟨hl, ht.symm.trans (he.trans ht')⟩
    · exact absurd (h.sent l q hq c (hqc ▸ hc)) hf'
    · exact absurd (h.sent l' q' hq' c (hqc' ▸ hc')) hf
    · exact ⟨rfl, ht.trans ht'.symm⟩

end World

end BlindBoard
