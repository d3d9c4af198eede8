import BlindBoard.Proof.Pipeline

/-!
# The cloud holds the board

In a launch that starts with an empty collection and an empty folder, the
documents of the collection are those of the adds on the board, and the objects
of the folder are the images of the adds that have one
(`Provenance.documents`, `Provenance.objects`). With it goes that every word the
app has got hold of, in a list, on a screen or in an answer, is one that an add
wrote, so that a deletion or a comment is for the word of an add.
-/

namespace BlindBoard

open Lib Spec

/-- The download URL that a call of an add carries. -/
def InFlight.imageUrl (p : InFlight) : Option String :=
  match p.call, p.answer with
  | .setData _ _ imageUrl _, _ => some imageUrl
  | .downloadURL _ _, some ⟨.url imageUrl, _⟩ => some imageUrl
  | _, _ => none

/-- The cloud's part that belongs to the launch is that of the board `b`. -/
structure Holds (uid : Option UUID) (cloud : Cloud) (b : Board) : Prop where
  documents : ∀ id d, cloud.documents.lookup (COLLECTION_BOARD uid ++ [id]) = some d ↔
    ∃ e ∈ b, e.onBoard = true ∧ e.uid = id ∧ e.document = d
  objects : ∀ p u, (∃ data, cloud.objects.lookup (folderName uid :: p) = some ⟨data, u⟩) ↔
    ∃ e ∈ b, e.hasImage = true ∧ e.url = some u ∧ ∃ f, e.fileName = some f ∧ p = [f]

structure Provenance (s : State) : Prop where
  holds : Holds s.app.uid s.cloud s.board
  carried : ∀ p ∈ s.app.net, ∀ w u, p.call.word = some w → p.imageUrl = some u →
    ∃ e ∈ s.board, e.uid = w.uid ∧ e.url = some u
  deleted : ∀ e ∈ s.board, e.deleted = true ∨ e.imageDeleted = true → e.writtenTime.isSome = true
  rows : s.app.rows = s.app.arr
  arr : ∀ w ∈ s.app.arr, s.board.Wrote w
  details : ∀ n d, s.app.details n = some d → s.board.Wrote d.board
  replies : ∀ p ∈ s.app.net, ∀ documents k, p.call = .loadData → p.answer = some ⟨.documents documents, k⟩ →
    ∀ d ∈ documents, s.board.Wrote (Word.ofDictionary d.2)

namespace Holds

variable {uid : Option UUID} {cloud : Cloud} {b : Board}

/-- An add that is not written yet, and has no image, changes. -/
theorem update (h : Holds uid cloud b) {word : String} {g : Entry → Entry}
    (hg : ∀ e ∈ b, e.uid = word → (e.onBoard = false ∧ (g e).onBoard = false) ∧
      e.hasImage = false ∧ (g e).hasImage = false) : Holds uid cloud (b.update word g) where
  documents id d := by
    rw [h.documents, Board.exists_update_congr]
    intro e he hu
    simp [hg e he hu]
  objects p u := by
    rw [h.objects, Board.exists_update_congr]
    intro e he hu
    simp [hg e he hu]

theorem start (h : Holds uid cloud b) {e : Entry} (hb : e.onBoard = false) (hi : e.hasImage = false) :
    Holds uid cloud (b ++ [e]) where
  documents id d := by
    rw [h.documents]
    simp [or_and_right, exists_or, hb]
  objects p u := by
    rw [h.objects]
    simp [or_and_right, exists_or, hi]

/-- A comment is written, at a path that is no word's. -/
theorem comment (h : Holds uid cloud b) {p : Path} (hp : ∀ id, p ≠ COLLECTION_BOARD uid ++ [id])
    (d : Dictionary) :
    Holds uid { cloud with documents := cloud.documents.insert p d } b where
  documents id d' := by
    rw [← h.documents]
    simp only [AList.lookup_insert_ne fun e => hp id e.symm]
  objects := h.objects

/-- The document of the add `e₀` is written. -/
theorem write (h : Holds uid cloud b) (hu : (b.map Entry.uid).Nodup) {e₀ : Entry} (he₀ : e₀ ∈ b)
    (hid : IsUUID e₀.uid) (hd : e₀.deleted = false) (t : String) :
    Holds uid
      { cloud with
        documents := cloud.documents.insert (wordDocument uid e₀.uid)
          (Entry.document { e₀ with writtenTime := some t }) }
      (b.update e₀.uid fun e => { e with writtenTime := some t }) where
  documents id d := by
    simp only [wordDocument_uuid uid hid, Board.exists_update]
    rcases eq_or_ne id e₀.uid with rfl | hne
    · rw [AList.lookup_insert, Option.some.injEq]
      constructor
      · rintro rfl
        exact ⟨e₀, he₀, by simp [Entry.onBoard, hd]⟩
      · rintro ⟨e, he, h⟩
        by_cases he' : e.uid = e₀.uid
        · obtain rfl := Board.eq_of_uid hu he he₀ he'
          simpa using h.2.2
        · rw [if_neg he'] at h
          exact absurd h.2.1 he'
    · rw [AList.lookup_insert_ne (by simpa using hne), h.documents]
      refine exists_congr fun e => and_congr_right fun _ => ?_
      split
      next he' => simp [he', hne.symm]
      · exact .rfl
  objects p u := by
    rw [h.objects, Board.exists_update_congr]
    exact fun _ _ _ => .rfl

/-- The image of the add `e₀` is uploaded. -/
theorem upload (h : Holds uid cloud b) (hu : (b.map Entry.uid).Nodup) {e₀ : Entry} (he₀ : e₀ ∈ b) {f : String}
    (hf : e₀.fileName = some f) (hid : IsUUID f) (own : ∀ e ∈ b, e.fileName = some f → e = e₀)
    (hn : e₀.writtenTime = none) (hd : e₀.imageDeleted = false) (data : Data) (url : String) :
    Holds uid { cloud with objects := cloud.objects.insert (imageReference uid f) ⟨data, url⟩ }
      (b.update e₀.uid fun e => { e with url := some url }) where
  documents id d := by
    rw [h.documents, Board.exists_update_congr]
    intro e he he'
    obtain rfl := Board.eq_of_uid hu he he₀ he'
    simp [Entry.onBoard, hn]
  objects p u := by
    simp only [imageReference_uuid uid hid, Board.exists_update]
    rcases eq_or_ne p [f] with rfl | hne
    · rw [AList.lookup_insert]
      constructor
      · rintro ⟨data', ⟨⟩⟩
        exact ⟨e₀, he₀, by simp [Entry.hasImage, hd, hf]⟩
      · rintro ⟨e, he, h⟩
        have he' : e = e₀ := by
          obtain ⟨f', hf', hp⟩ := h.2.2
          obtain rfl : f = f' := by simpa using hp
          exact own e he (by split at hf' <;> exact hf')
        subst he'
        rw [if_pos rfl] at h
        exact ⟨data, by simpa using h.2.1⟩
    · rw [AList.lookup_insert_ne (by simpa using hne), h.objects]
      refine exists_congr fun e => and_congr_right fun he => ?_
      split
      next he' =>
        obtain rfl := Board.eq_of_uid hu he he₀ he'
        simp [hf, hne]
      · exact .rfl

/-- The document of a word is deleted. -/
theorem delete (h : Holds uid cloud b) {word : String} (hid : IsUUID word) :
    Holds uid { cloud with documents := cloud.documents.erase (wordDocument uid word) }
      (b.update word fun e => { e with deleted := true }) where
  documents id d := by
    simp only [wordDocument_uuid uid hid, Board.exists_update]
    rcases eq_or_ne id word with rfl | hne
    · rw [AList.lookup_erase]
      refine ⟨by simp, ?_⟩
      rintro ⟨e, -, h⟩
      split at h
      · simp [Entry.onBoard] at h
      next he' => exact absurd h.2.1 he'
    · rw [AList.lookup_erase_ne (by simpa using hne), h.documents]
      refine exists_congr fun e => and_congr_right fun _ => ?_
      split
      next he' => simp [he', hne.symm]
      · exact .rfl
  objects p u := by
    rw [h.objects, Board.exists_update_congr]
    exact fun _ _ _ => .rfl

/-- The image named `f` is deleted, if there is one. -/
theorem deleteImage (h : Holds uid cloud b) {f : String} (hid : IsUUID f) (url : String) :
    Holds uid (cloud.serve (.deleteObject (imageReference uid f)) (.success url)).1
      (b.map fun e => if e.fileName = some f then { e with imageDeleted := true } else e) where
  documents id d := by
    have same : (cloud.serve (.deleteObject (imageReference uid f)) (.success url)).1.documents =
      cloud.documents := by
      simp only [Cloud.serve]
      split <;> rfl
    rw [same, h.documents]
    simp only [List.mem_map, exists_exists_and_eq_and]
    refine exists_congr fun e => and_congr_right fun _ => ?_
    split <;> exact .rfl
  objects p u := by
    have gone : ∀ p, (cloud.serve (.deleteObject (imageReference uid f)) (.success url)).1.objects.lookup
        (folderName uid :: p) = if p = [f] then none else cloud.objects.lookup (folderName uid :: p) := by
      intro p
      rw [imageReference_uuid uid hid]
      cases ho : cloud.objects.lookup [folderName uid, f] <;> simp only [Cloud.serve, ho]
      · split_ifs with hp
        · rw [hp, ho]
        · rfl
      · split_ifs with hp
        · rw [hp, AList.lookup_erase]
        · exact AList.lookup_erase_ne (by simpa using hp)
    simp only [gone, List.mem_map, exists_exists_and_eq_and]
    rcases eq_or_ne p [f] with rfl | hne
    · simp only [if_true, reduceCtorEq, exists_false, List.cons.injEq, and_true, false_iff]
      rintro ⟨e, -, h⟩
      split at h
      · simp [Entry.hasImage] at h
      next hf => simp_all
    · rw [if_neg hne, h.objects]
      refine exists_congr fun e => and_congr_right fun _ => ?_
      split
      next hf => simp [hf, hne]
      · exact .rfl

end Holds

namespace Provenance

theorem start {s : State} (h : Start s) : Provenance s where
  holds := by
    have hb : s.board = [] := by rw [State.board, h.launch]; rfl
    constructor
    · intro id d
      simp [hb, h.documents _ (List.prefix_append _ [id])]
    · intro p u
      have hp : imageReference s.app.uid "" <+: folderName s.app.uid :: p := by
        rw [imageReference_eq, show segments "" = [] from rfl]
        exact List.prefix_append _ p
      simp [hb, h.objects _ hp]
  carried := by rw [h.launch]; simp [App.launch]
  deleted := by rw [State.board, h.launch]; simp [App.launch, Board.ofLog]
  rows := by rw [h.launch]; rfl
  arr := by rw [h.launch]; simp [App.launch]
  details := by rw [h.launch]; simp [App.launch]
  replies := by rw [h.launch]; simp [App.launch]

variable {s s' : State}

/-- The word that a call of a screen is for was written by an add. -/
theorem concerns (h : Provenance s) {screen : Nat} {w : Word} (hw : s.app.Shows screen w) :
    s.board.Wrote w := by
  obtain ⟨d, hd, rfl⟩ := hw
  exact h.details screen d hd

/-- An add that is not written has not been deleted, nor its image. -/
theorem not_deleted (h : Provenance s) {e : Entry} (he : e ∈ s.board) (hn : e.writtenTime = none) :
    e.deleted = false ∧ e.imageDeleted = false := by
  have := h.deleted e he
  cases hd : e.deleted <;> cases hi : e.imageDeleted <;> simp_all

/-- The document a call writes is that of its add. -/
theorem document_eq (h : Provenance s) (hP : Pipeline s.used s.board s.app.net)
    {p : InFlight} (hp : p ∈ s.app.net)
    {w : Word} {t u f : String} (hc : p.call = .setData w t u f) {e : Entry}
    (he : e ∈ s.board) (hu : e.uid = w.uid) :
    w.document t u f = Entry.document { e with writtenTime := some t } := by
  obtain ⟨ha, hA⟩ := hP.awaits hp (by rw [hc]; rfl) he hu
  rw [Awaits, hc] at hA
  obtain ⟨e', he', hu', hurl⟩ := h.carried p hp w u (by rw [hc]; rfl) (by rw [InFlight.imageUrl, hc])
  obtain rfl := Board.eq_of_uid hP.uids he he' (hu.trans hu'.symm)
  simp [Entry.document, Word.document, Entry.word, Entry.time, ha.uid, ha.title, ha.content, hA.1, hurl]

theorem served_holds (h : Provenance s) (hP : Pipeline s.used s.board s.app.net)
    (hS : Screens s) {p : InFlight}
    {r : Request} (hp : p ∈ s.app.net) (ha : p.answer = none) (hr : p.call.request s.app.uid = some r)
    (outcome : Outcome) :
    Holds s.app.uid (s.cloud.serve r outcome).1 (s.board.step (.served p.ticket p.call outcome)) := by
  obtain ⟨t, call, answer⟩ := p
  cases ha
  cases outcome with
  | failure => cases call <;> cases hr <;> exact h.holds
  | success url =>
    cases call with
    | dataTask w => cases hr
    | putData w f data =>
      cases hr
      obtain ⟨e, he, ha, hA⟩ := hP.pending _ hp w rfl
      have own : ∀ e' ∈ s.board, e'.fileName = some f → e' = e :=
        fun e' he' hf => hP.own e' he' e he f hf hA.1
      have := h.holds.upload hP.uids he hA.1 (hP.fileName e he f hA.1).2 own hA.2.2
        (h.not_deleted he hA.2.2).2 data url
      rwa [ha.uid] at this
    | downloadURL w f =>
      cases hr
      simp only [Cloud.serve]
      split <;> exact h.holds
    | setData w writtenTime u f =>
      cases hr
      obtain ⟨e, he, ha, hA⟩ := hP.pending _ hp w rfl
      have := h.holds.write hP.uids he (hP.uid e he).2
        (h.not_deleted he (by simpa [InFlight.done] using hA.2.2)).1
        writtenTime
      rw [← h.document_eq hP hp rfl he ha.uid, ha.uid] at this
      exact this
    | loadData => cases hr; exact h.holds
    | deleteDocument screen uid =>
      cases hr
      obtain ⟨w, hw, rfl⟩ := hS.calls _ hp rfl
      obtain ⟨e, he, -, rfl⟩ := h.concerns hw
      exact h.holds.delete (hP.uid e he).2
    | deleteObject screen f =>
      cases hr
      obtain ⟨w, hw, rfl⟩ := hS.calls _ hp rfl
      obtain ⟨e, he, ht, rfl⟩ := h.concerns hw
      obtain ⟨f, hf⟩ := Option.isSome_iff_exists.mp (hP.named e he (hP.uploaded e he ht))
      simp only [Entry.word, hf, Option.getD_some]
      exact h.holds.deleteImage (hP.fileName e he f hf).2 url
    | reloadComment screen uid => cases hr; exact h.holds
    | addDocument screen uid autoID comment =>
      cases hr
      obtain ⟨w, hw, rfl⟩ := hS.calls _ hp rfl
      obtain ⟨e, he, -, rfl⟩ := h.concerns hw
      exact h.holds.comment (fun id => comment_ne_word _ (hP.uid e he).2) _

theorem move_holds (h : Provenance s) (hP : Pipeline s.used s.board s.app.net)
    (hS : Screens s) (hm : Move s s') :
    Holds s'.app.uid s'.cloud s'.board := by
  rw [hm.uid]
  cases hm.board with
  | same hb hcloud =>
    rw [hb, hcloud]
    exact h.holds
  | saved sheet title content uid hf hb hcloud =>
    rw [hb, hcloud]
    exact h.holds.start rfl rfl
  | named hp hc fileName hf hb hcloud =>
    rw [hb, hcloud]
    refine h.holds.update fun e he hu => ?_
    have hA := (hP.awaits hp (by rw [hc]; rfl) he hu).2
    rw [Awaits, hc] at hA
    simp [Entry.onBoard, Entry.hasImage, hA]
  | served hp ha hr outcome hs =>
    rw [hs, State.board_serve]
    exact h.served_holds hP hS hp ha hr outcome

/-- The URL that is looked up is the one under which the image was uploaded. -/
theorem looked_up (h : Provenance s) (hP : Pipeline s.used s.board s.app.net)
    {t : Nat} {w : Word} {f : String}
    {answer : Option Answer} (hq : ⟨t, .downloadURL w f, answer⟩ ∈ s.app.net) {outcome : Outcome} {u : String}
    {k : Nat} (hu : InFlight.imageUrl ⟨t, .downloadURL w f,
      some ⟨(s.cloud.serve (.downloadURL (imageReference s.app.uid f)) outcome).2, k⟩⟩ = some u) :
    ∃ e ∈ s.board, e.uid = w.uid ∧ e.url = some u := by
  obtain ⟨e, he, hau, hA⟩ := hP.pending _ hq w rfl
  cases outcome with
  | failure => cases hu
  | success url =>
    rw [imageReference_uuid _ (hP.fileName e he f hA.1).2] at hu
    cases ho : s.cloud.objects.lookup [folderName s.app.uid, f] with
    | none => simp [InFlight.imageUrl, Cloud.serve, ho] at hu
    | some o =>
      simp only [InFlight.imageUrl, Cloud.serve, ho, Option.some.injEq] at hu
      obtain ⟨e', he', -, hu', f', hf', hff⟩ := (h.holds.objects [f] u).mp ⟨o.data, by rw [ho, ← hu]⟩
      cases hff
      exact ⟨e', he', by rw [hP.own e' he' e he f hf' hA.1, hau.uid], hu'⟩

/-- The add of a call that carries a URL has that URL. -/
theorem move_carried (h : Provenance s) (hP : Pipeline s.used s.board s.app.net) (hm : Move s s') :
    ∀ p ∈ s'.app.net, ∀ w u, p.call.word = some w → p.imageUrl = some u →
    ∃ e ∈ s'.board, e.uid = w.uid ∧ e.url = some u := by
  intro p hp w u hw hu
  suffices hs : ∃ e ∈ s.board, e.uid = w.uid ∧ e.url = some u by
    obtain ⟨e, he, he', hu'⟩ := hs
    obtain ⟨e', h', hl⟩ := hP.later hm e he
    exact ⟨e', h', hl.uid.trans he', hl.url u hu'⟩
  rcases hm.mem_net hp with hp | ⟨⟨t, call, answer⟩, hq, r, outcome, -, hr, -, rfl⟩ | ⟨he, -, -, hS⟩
  · exact h.carried p hp w u hw hu
  · cases call with
    | setData => exact h.carried _ hq w u hw hu
    | downloadURL w' f =>
      cases hr
      cases hw
      exact h.looked_up hP hq hu
    | _ => simp [InFlight.imageUrl] at hu
  · rw [he] at hu
    generalize p.call = call at hw hu hS
    cases hS with
    | setData hq hc ha =>
      cases hw
      cases hu
      exact h.carried _ hq w u (by rw [hc]; rfl) (by rw [InFlight.imageUrl, hc, ha])
    | allowed _ hA =>
      rw [hA.word] at hw
      cases hw
    | _ => cases hu

/-- A deletion is for a word that was written. -/
theorem served_deleted (h : Provenance s) (hP : Pipeline s.used s.board s.app.net)
    (hS : Screens s) {p : InFlight}
    (hp : p ∈ s.app.net) (ha : p.answer = none) (outcome : Outcome) :
    ∀ e ∈ s.board.step (.served p.ticket p.call outcome), e.deleted = true ∨ e.imageDeleted = true →
      e.writtenTime.isSome = true := by
  obtain ⟨t, call, answer⟩ := p
  cases ha
  cases outcome with
  | failure => cases call <;> exact h.deleted
  | success url =>
    cases call with
    | putData w f data =>
      intro e he
      rcases Board.mem_update_cases he with ⟨he, -⟩ | ⟨e₀, he₀, -, rfl⟩
      · exact h.deleted e he
      · exact h.deleted e₀ he₀
    | setData w writtenTime u f =>
      intro e he
      rcases Board.mem_update_cases he with ⟨he, -⟩ | ⟨e₀, he₀, -, rfl⟩
      · exact h.deleted e he
      · exact fun _ => rfl
    | deleteDocument screen uid =>
      obtain ⟨w, hw, rfl⟩ := hS.calls _ hp rfl
      obtain ⟨e₁, he₁, ht, rfl⟩ := h.concerns hw
      intro e he
      rcases Board.mem_update_cases he with ⟨he, -⟩ | ⟨e₀, he₀, hu, rfl⟩
      · exact h.deleted e he
      · obtain rfl := Board.eq_of_uid hP.uids he₀ he₁ hu
        exact fun _ => ht
    | deleteObject screen f =>
      obtain ⟨w, hw, rfl⟩ := hS.calls _ hp rfl
      obtain ⟨e₁, he₁, ht, rfl⟩ := h.concerns hw
      obtain ⟨f, hf⟩ := Option.isSome_iff_exists.mp (hP.named e₁ he₁ (hP.uploaded e₁ he₁ ht))
      intro e he
      obtain ⟨e₀, he₀, rfl⟩ := List.mem_map.mp he
      split
      next hf' =>
        simp only [Entry.word, hf, Option.getD_some] at hf'
        obtain rfl := hP.own e₀ he₀ e₁ he₁ f hf' hf
        exact fun _ => ht
      · exact h.deleted e₀ he₀
    | _ => exact h.deleted

/-- What is deleted has been written. -/
theorem move_deleted (h : Provenance s) (hP : Pipeline s.used s.board s.app.net)
    (hS : Screens s) (hm : Move s s') :
    ∀ e ∈ s'.board, e.deleted = true ∨ e.imageDeleted = true → e.writtenTime.isSome = true := by
  cases hm.board with
  | same hb => exact hb ▸ h.deleted
  | saved sheet title content uid hf hb =>
    rw [hb]
    intro e he hd
    rcases List.mem_append.mp he with he | he
    · exact h.deleted e he hd
    · rw [List.mem_singleton.mp he] at hd
      simp at hd
  | named hp hc fileName hf hb =>
    rw [hb]
    intro e he
    rcases Board.mem_update_cases he with ⟨he, -⟩ | ⟨e₀, he₀, -, rfl⟩
    · exact h.deleted e he
    · exact h.deleted e₀ he₀
  | served hp ha hr outcome hs =>
    rw [hs, State.board_serve]
    exact h.served_deleted hP hS hp ha outcome

theorem move_replies (h : Provenance s) (hP : Pipeline s.used s.board s.app.net) (hm : Move s s') :
    ∀ p ∈ s'.app.net, ∀ documents k, p.call = .loadData → p.answer = some ⟨.documents documents, k⟩ →
      ∀ d ∈ documents, s'.board.Wrote (Word.ofDictionary d.2) := by
  intro p hp documents k hc ha d hd
  refine hP.wrote hm ?_
  rcases hm.answered hp ha with hp | ⟨r, outcome, -, hr, hrep, -⟩
  · exact h.replies p hp documents k hc ha d hd
  · rw [hc] at hr
    cases hr
    cases outcome with
    | failure => cases hrep
    | success url =>
      cases hrep
      obtain ⟨p, d⟩ := d
      obtain ⟨hl, hin, -⟩ := mem_getDocuments.mp hd
      obtain ⟨id, rfl⟩ := inCollection_iff.mp hin
      obtain ⟨e, he, hb, -, rfl⟩ := (h.holds.documents id d).mp hl
      exact ⟨e, he, by simp_all [Entry.onBoard], rfl⟩

theorem move (h : Provenance s) (hP : Pipeline s.used s.board s.app.net) (hS : Screens s) (hm : Move s s') :
    Provenance s' where
  holds := h.move_holds hP hS hm
  carried := h.move_carried hP hm
  deleted := h.move_deleted hP hS hm
  rows := by
    cases hm with
    | saved sheet title content uid url => cases url <;> exact h.rows
    | loaded => rfl
    | _ => exact h.rows
  arr := by
    intro w hw
    refine hP.wrote hm ?_
    cases hm with
    | saved sheet title content uid url => cases url <;> exact h.arr w hw
    | loaded hp hc ha =>
      obtain ⟨d, hd, rfl⟩ := List.mem_map.mp hw
      exact h.replies _ hp _ _ hc ha d hd
    | _ => exact h.arr w hw
  details := by
    intro n d hd
    refine hP.wrote hm ?_
    rcases hm.details hd with ⟨d₀, h₀, hb, -⟩ | ⟨-, -, -, hw⟩
    · exact hb ▸ h.details n d₀ h₀
    · exact h.arr _ hw
  replies := h.move_replies hP hm

end Provenance

theorem Moved.provenance {s : State} (h : Moved s) : Provenance s :=
  h.inv (fun _ => Provenance.start) fun _ _ hr hp hm => hp.move hr.pipeline hr.screens hm

end BlindBoard
