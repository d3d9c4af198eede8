import BlindBoard.Proof.WordList

/-!
# Words and images

Two stores are changed by separate requests, and nothing is undone when one of
them fails. When no request is in flight, every word document names the object
that its own add uploaded, and no other document names it; the correspondence
is one-to-one in both directions exactly when no add failed between its upload
and its document, and document and image were deleted together
(`words_images_iff`).
-/

namespace BlindBoard

open Lib Spec

/-! ## How an add ends -/

/-- The image of the add of `w` was uploaded. -/
def Uploaded (log : List Event) (w : Word) : Prop :=
  ∃ t f data u, .served t (.putData w f data) (.success u) ∈ log

/-- The document of `w` was written. -/
def Written (log : List Event) (w : Word) : Prop :=
  ∃ t time u f o, .served t (.setData w time u f) (.success o) ∈ log

/-- The add of `w` failed after its upload: the URL's lookup or the write failed. -/
def AddFailed (log : List Event) (w : Word) : Prop :=
  (∃ t f, .served t (.downloadURL w f) .failure ∈ log) ∨ ∃ t time u f,
  .served t (.setData w time u f) .failure ∈ log

/-- The reply of a call that succeeds. -/
def Call.expects : Call → Reply → Bool
  | .putData .., .done | .setData .., .done | .downloadURL .., .url _ => true
  | _, _ => false

structure Fates (s : State) : Prop where
  replies : ∀ p ∈ s.app.net, ∀ w reply k, p.call.word = some w → p.answer = some ⟨reply, k⟩ →
    p.call.expects reply = true ∨ reply = .failed ∧ .served p.ticket p.call .failure ∈ s.app.log
  fails : ∀ w, AddFailed s.app.log w → Uploaded s.app.log w ∧ ¬ Written s.app.log w ∧
    ∀ p ∈ s.app.net, p.call.word = some w → ∃ k, p.answer = some ⟨.failed, k⟩
  ends : ∀ w, Uploaded s.app.log w →
    Written s.app.log w ∨ AddFailed s.app.log w ∨ ∃ p ∈ s.app.net, p.call.word = some w

section Log

variable {log : List Event} {w : Word}

theorem Uploaded.append (h : Uploaded log w) (events : List Event) : Uploaded (log ++ events) w := by
  obtain ⟨t, f, data, u, h⟩ := h
  exact ⟨t, f, data, u, List.mem_append_left _ h⟩

theorem Written.append (h : Written log w) (events : List Event) : Written (log ++ events) w := by
  obtain ⟨t, time, u, f, o, h⟩ := h
  exact ⟨t, time, u, f, o, List.mem_append_left _ h⟩

theorem AddFailed.append (h : AddFailed log w) (events : List Event) : AddFailed (log ++ events) w := by
  rcases h with ⟨t, f, h⟩ | ⟨t, time, u, f, h⟩
  · exact .inl ⟨t, f, List.mem_append_left _ h⟩
  · exact .inr ⟨t, time, u, f, List.mem_append_left _ h⟩

end Log

namespace Fates

variable {s s' : State}

theorem start (h : Start s) : Fates s := by
  constructor <;> rw [h.launch] <;> simp [App.launch, AddFailed, Uploaded]

/-- The download URL of an image is found if the lookup is served: an add that
awaits it has its image in Storage. -/
theorem reply_expected (hr : Moved s) {t : Nat} {call : Call} {w : Word} (hp : ⟨t, call, none⟩ ∈ s.app.net)
    (hw : call.word = some w) {r : Request} (hreq : call.request s.app.uid = some r) {outcome : Outcome}
    (ho : outcome ≠ .failure) : call.expects (s.cloud.serve r outcome).2 = true := by
  cases outcome with
  | failure => exact absurd rfl ho
  | success url =>
    cases call <;> cases hreq <;> cases hw <;> try rfl
    rename_i f
    obtain ⟨e, he, -, hA⟩ := hr.pipeline.pending _ hp w rfl
    obtain ⟨u, hu⟩ := Option.isSome_iff_exists.mp hA.2.1
    have hi : e.hasImage = true := by
      simp [Entry.hasImage, hu, (hr.provenance.not_deleted he hA.2.2).2]
    obtain ⟨data, hd⟩ := (hr.provenance.holds.objects [f] u).mpr ⟨e, he, hi, hu, f, hA.1, rfl⟩
    rw [← imageReference_uuid _ (hr.pipeline.fileName e he f hA.1).2] at hd
    simp [Cloud.serve, hd, Call.expects]

theorem move_replies (h : Fates s) (hr : Moved s) (hm : Move s s') :
    ∀ p ∈ s'.app.net, ∀ w reply k, p.call.word = some w → p.answer = some ⟨reply, k⟩ →
      p.call.expects reply = true ∨ reply = .failed ∧ .served p.ticket p.call .failure ∈ s'.app.log := by
  intro p hp w reply k hw ha
  obtain ⟨events, hlog⟩ := hm.log
  rcases hm.answered hp ha with hp | ⟨r, outcome, hp, hreq, rfl, -, hl⟩
  · refine (h.replies p hp w reply k hw ha).imp id (And.imp_right fun h => ?_)
    rw [hlog]
    exact List.mem_append_left _ h
  · cases outcome with
    | failure =>
      refine .inr ⟨?_, by rw [hl]; simp⟩
      cases r <;> rfl
    | success url => exact .inl (reply_expected hr hp hw hreq (by simp))

/-- A call of an add that has not been answered is for an add that has not failed. -/
theorem unanswered (h : Fates s) {p : InFlight} (hp : p ∈ s.app.net) {w : Word} (hw : p.call.word = some w)
    (ha : ∀ k, p.answer ≠ some ⟨.failed, k⟩) : ¬ AddFailed s.app.log w := fun hf => by
  obtain ⟨k, hk⟩ := (h.fails w hf).2.2 p hp hw
  exact ha k hk

/-- A request that fails now is one of an add that is uploaded and not written. -/
theorem failing (hr : Moved s) {t : Nat} {call : Call} {w : Word} (hp : ⟨t, call, none⟩ ∈ s.app.net)
    (hc : (∃ f, call = .downloadURL w f) ∨ ∃ time u f, call = .setData w time u f) :
    Uploaded s.app.log w ∧ ¬ Written s.app.log w := by
  have hw : call.word = some w := by rcases hc with ⟨f, rfl⟩ | ⟨time, u, f, rfl⟩ <;> rfl
  obtain ⟨e, he, rfl, hA⟩ := hr.pipeline.pending _ hp w hw
  have hst : ∃ f, e.fileName = some f ∧ e.url.isSome = true ∧ e.writtenTime = none := by
    rcases hc with ⟨f, rfl⟩ | ⟨time, u, f, rfl⟩
    · exact ⟨f, hA⟩
    · exact ⟨f, hA.1, hA.2.1, by simpa [InFlight.done] using hA.2.2⟩
  obtain ⟨f, hf, hu, hn⟩ := hst
  obtain ⟨u, hu⟩ := Option.isSome_iff_exists.mp hu
  constructor
  · obtain ⟨t, data, h⟩ := (hr.agrees.uploaded e.saved f u).mpr ⟨e, he, rfl, hf, hu⟩
    exact ⟨t, f, data, u, h⟩
  · rintro ⟨t, time, u, f, o, h⟩
    obtain ⟨e', he', hs, ht, -⟩ := (hr.agrees.written _ _ _ _).mp ⟨t, o, h⟩
    obtain rfl := Board.eq_of_uid hr.pipeline.uids he' he (congrArg Word.uid hs)
    rw [hn] at ht
    cases ht

theorem move_fails (h : Fates s) (hr : Moved s) (hm : Move s s') {w : Word} (hf : AddFailed s'.app.log w) :
    Uploaded s'.app.log w ∧ ¬ Written s'.app.log w ∧
      ∀ p ∈ s'.app.net, p.call.word = some w → ∃ k, p.answer = some ⟨.failed, k⟩ := by
  obtain ⟨events, hlog⟩ := hm.log
  -- the add has failed before, or its request fails now
  have cases_on : AddFailed s.app.log w ∨ ∃ t call r, ⟨t, call, none⟩ ∈ s.app.net ∧
      ((∃ f, call = .downloadURL w f) ∨ ∃ time u f, call = .setData w time u f) ∧
      s' = s.serve ⟨t, call, none⟩ r .failure := by
    rcases hf with ⟨t, f, he⟩ | ⟨t, time, u, f, he⟩ <;> rcases hm.served_log he with he | ⟨r, hp, -, hs⟩
    · exact .inl (.inl ⟨t, f, he⟩)
    · exact .inr ⟨t, _, r, hp, .inl ⟨f, rfl⟩, hs⟩
    · exact .inl (.inr ⟨t, time, u, f, he⟩)
    · exact .inr ⟨t, _, r, hp, .inr ⟨time, u, f, rfl⟩, hs⟩
  rcases cases_on with hf | ⟨t, call, r, hp, hc, rfl⟩
  · obtain ⟨hu, hn, hpend⟩ := h.fails w hf
    refine ⟨hlog ▸ hu.append events, ?_, fun p hp hw => ?_⟩
    · rintro ⟨t, time, u, f, o, he⟩
      rcases hm.served_log he with he | ⟨r, hp, -⟩
      · exact hn ⟨t, time, u, f, o, he⟩
      · exact h.unanswered hp rfl (by simp) hf
    · obtain ⟨t, f, data, u, hu⟩ := hu
      obtain ⟨e, he, hs, -, hurl⟩ := (hr.agrees.uploaded _ _ _).mp ⟨t, data, hu⟩
      rcases hm.sent_word hp hw with hp | hnew | ⟨q, hq, hqw, ⟨-, hqa⟩ | hqc | hqa⟩
      · exact hpend p hp hw
      · exact absurd (hs ▸ (hr.pipeline.uid e he).1) hnew
      · exact absurd hf (h.unanswered hq hqw (by simp [hqa]))
      · have hA := (hr.pipeline.awaits hq hqw he (congrArg Word.uid hs)).2
        rw [Awaits, hqc] at hA
        rw [hA.2.1] at hurl
        cases hurl
      · exact absurd hf (h.unanswered hq hqw hqa)
  · obtain ⟨hu, hn⟩ := failing hr hp hc
    have hw : call.word = some w := by rcases hc with ⟨f, rfl⟩ | ⟨time, u, f, rfl⟩ <;> rfl
    refine ⟨hlog ▸ hu.append events, ?_, fun p' hp' hw' => ?_⟩
    · rintro ⟨t', time, u, f, o, he⟩
      refine hn ⟨t', time, u, f, o, ?_⟩
      simpa [State.serve] using he
    · have hlast : ⟨t, call, some ⟨(s.cloud.serve r .failure).2, s.app.log.length⟩⟩ ∈ (s.serve
        ⟨t, call, none⟩ r .failure).app.net :=
        List.mem_append_right _ List.mem_cons_self
      obtain rfl := (hr.move hm).pipeline.single _ hp' _ hlast w w hw' hw rfl
      exact ⟨s.app.log.length, by cases r <;> rfl⟩

/-- When the last closure of an uploaded add ends, the add is written or has failed. -/
theorem ended (h : Fates s) (hr : Moved s) {p : InFlight} (hp : p ∈ s.app.net) {w : Word}
    (hw : p.call.word = some w) (hend : p.Ends) {e : Entry} (he : e ∈ s.board) (hs : e.saved = w) {u : String}
    (hu : e.url = some u) : Written s.app.log w ∨ AddFailed s.app.log w := by
  have hA := (hr.pipeline.awaits hp hw he (congrArg Word.uid hs)).2
  have hrep := h.replies p hp w
  obtain ⟨t, call, answer⟩ := p
  cases call with
  | dataTask w' =>
    rw [hA.2.1] at hu
    cases hu
  | putData w' f data =>
    have hd := hA.2.1
    cases answer with
    | none => simp [InFlight.done, hu] at hd
    | some a => exact absurd (by simpa [InFlight.done, hu] using hd) hend
  | downloadURL w' f =>
    cases hw
    cases answer with
    | none => cases hend
    | some a =>
      obtain ⟨reply, k⟩ := a
      rcases hrep reply k rfl rfl with hx | ⟨-, hev⟩
      · cases reply with
        | url u' => exact absurd rfl (hend u')
        | _ => cases hx
      · exact .inr (.inl ⟨t, f, hev⟩)
  | setData w' time u' f =>
    cases hw
    cases answer with
    | none => cases hend
    | some a =>
      obtain ⟨reply, k⟩ := a
      rcases hrep reply k rfl rfl with hx | ⟨-, hev⟩
      · have ht : e.writtenTime = some time := by
          cases reply <;> simp [Call.expects] at hx
          exact hA.2.2
        obtain ⟨t', hw⟩ := (hr.agrees.written w time u f).mpr ⟨e, he, hs, ht, hu, hA.1⟩
        exact .inl ⟨t', time, u, f, hw⟩
      · exact .inr (.inr ⟨t, time, u', f, hev⟩)
  | _ => cases hw

theorem move_ends (h : Fates s) (hr : Moved s) (hm : Move s s') {w : Word} (hu : Uploaded s'.app.log w) :
    Written s'.app.log w ∨ AddFailed s'.app.log w ∨ ∃ p ∈ s'.app.net, p.call.word = some w := by
  obtain ⟨events, hlog⟩ := hm.log
  rw [hlog]
  obtain ⟨t, f, data, u, he⟩ := hu
  rcases hm.served_log he with he | ⟨r, hp, -, rfl⟩
  · obtain ⟨e, he', hs, -, hurl⟩ := (hr.agrees.uploaded _ _ _).mp ⟨t, data, he⟩
    rcases h.ends w ⟨t, f, data, u, he⟩ with hw | hf | ⟨p, hp, hw⟩
    · exact .inl (hw.append events)
    · exact .inr (.inl (hf.append events))
    · rcases hm.follows hr.tickets hp hw with hpend | hend
      · exact .inr (.inr hpend)
      · exact (h.ended hr hp hw hend he' hs hurl).imp (·.append events) fun hf => .inl (hf.append events)
  · exact .inr (.inr ⟨_, List.mem_append_right _ List.mem_cons_self, rfl⟩)

end Fates

theorem Moved.fates {s : State} (h : Moved s) : Fates s :=
  h.inv (fun _ => Fates.start) fun _ _ hr hf hm =>
    ⟨hf.move_replies hr hm, fun _ => hf.move_fails hr hm, fun _ => hf.move_ends hr hm⟩

/-! ## The correspondence -/

/-- Every word document names an object that exists, and every object is named by
exactly one word document. -/
def OneToOne (uid : Option UUID) (cloud : Cloud) : Prop :=
  (∀ id d, cloud.documents.lookup (COLLECTION_BOARD uid ++ [id]) = some d →
    (cloud.objects.lookup (imageReference uid (Word.ofDictionary d).imageFileName)).isSome = true) ∧
  ∀ p, imageReference uid "" <+: p → (cloud.objects.lookup p).isSome = true →
    ∃! id, ∃ d, cloud.documents.lookup (COLLECTION_BOARD uid ++ [id]) = some d ∧
      imageReference uid (Word.ofDictionary d).imageFileName = p

/-- No add failed after its upload, and document and image were deleted together. -/
def Completed (log : List Event) : Prop :=
  ∀ w f u, (∃ t data, .served t (.putData w f data) (.success u) ∈ log) → ¬ AddFailed log w ∧
    ((∃ t screen o, .served t (.deleteDocument screen w.uid) (.success o) ∈ log) ↔
      ∃ t screen o, .served t (.deleteObject screen f) (.success o) ∈ log)

section Correspondence

variable {s : State}

/-- The object of an add that has an image. -/
theorem image_lookup (h : Moved s) {e : Entry} (he : e ∈ s.board) {f : String} (hf : e.fileName = some f) :
    (s.cloud.objects.lookup (imageReference s.app.uid f)).isSome = true ↔ e.hasImage = true := by
  rw [imageReference_uuid _ (h.pipeline.fileName e he f hf).2, Option.isSome_iff_exists]
  constructor
  · rintro ⟨⟨data, u⟩, ho⟩
    obtain ⟨e', he', hi, -, f', hf', hff⟩ := (h.provenance.holds.objects [f] u).mp ⟨data, ho⟩
    cases hff
    rwa [← h.pipeline.own e' he' e he f hf' hf]
  · intro hi
    obtain ⟨u, hu⟩ := Option.isSome_iff_exists.mp (show e.url.isSome = true by simp_all [Entry.hasImage])
    obtain ⟨data, ho⟩ := (h.provenance.holds.objects [f] u).mpr ⟨e, he, hi, hu, f, hf, rfl⟩
    exact ⟨_, ho⟩

/-- The word documents are those of the adds on the board. -/
theorem document_iff (h : Moved s) {id : String} {d : Dictionary} :
    s.cloud.documents.lookup (COLLECTION_BOARD s.app.uid ++ [id]) = some d ↔
      ∃ e ∈ s.board, e.onBoard = true ∧ e.uid = id ∧ e.document = d := h.provenance.holds.documents id d

/-- An add on the board has named its image. -/
theorem onBoard_fileName (h : Moved s) {e : Entry} (he : e ∈ s.board) (hb : e.onBoard = true) :
    e.url.isSome = true ∧ e.fileName = some e.word.imageFileName := by
  have ht : e.writtenTime.isSome = true := by simp_all [Entry.onBoard]
  have hu := h.pipeline.uploaded e he ht
  obtain ⟨f, hf⟩ := Option.isSome_iff_exists.mp (h.pipeline.named e he hu)
  exact ⟨hu, by simp [Entry.word, hf]⟩

/-- The correspondence holds when each add has both its document and its image, or neither. -/
theorem oneToOne_iff (h : Moved s) :
    OneToOne s.app.uid s.cloud ↔ ∀ e ∈ s.board, e.onBoard = true ↔ e.hasImage = true := by
  constructor
  · rintro ⟨hdoc, hobj⟩ e he
    constructor
    · intro hb
      rw [← image_lookup h he (onBoard_fileName h he hb).2]
      exact hdoc e.uid e.document ((document_iff h).mpr ⟨e, he, hb, rfl, rfl⟩)
    · intro hi
      obtain ⟨f, hf⟩ := Option.isSome_iff_exists.mp
        (h.pipeline.named e he (show e.url.isSome = true by simp_all [Entry.hasImage]))
      have hp : imageReference s.app.uid "" <+: imageReference s.app.uid f := by
        rw [imageReference_eq, imageReference_eq, show segments "" = [] from rfl]
        exact List.prefix_append _ _
      obtain ⟨id, ⟨d, hd, hr⟩, -⟩ := hobj _ hp ((image_lookup h he hf).mpr hi)
      obtain ⟨e', he', hb', rfl, rfl⟩ := (document_iff h).mp hd
      have hf' := (onBoard_fileName h he' hb').2
      rw [Entry.ofDictionary_document, imageReference_uuid _ (h.pipeline.fileName e' he' _ hf').2,
        imageReference_uuid _ (h.pipeline.fileName e he f hf).2] at hr
      have hff : e'.word.imageFileName = f := by simpa using hr
      rwa [h.pipeline.own e he e' he' f hf (hff ▸ hf')]
  · intro hall
    constructor
    · intro id d hd
      obtain ⟨e, he, hb, rfl, rfl⟩ := (document_iff h).mp hd
      exact (image_lookup h he (onBoard_fileName h he hb).2).mpr ((hall e he).mp hb)
    · intro p hp ho
      rw [imageReference_eq, show segments "" = [] from rfl] at hp
      obtain ⟨p, rfl⟩ := hp
      obtain ⟨⟨data, u⟩, ho⟩ := Option.isSome_iff_exists.mp ho
      obtain ⟨e, he, hi, -, f, hf, rfl⟩ := (h.provenance.holds.objects p u).mp ⟨data, ho⟩
      have hb := (hall e he).mpr hi
      have hf' := (onBoard_fileName h he hb).2
      cases hf.symm.trans hf'
      refine ⟨e.uid, ⟨e.document, (document_iff h).mpr ⟨e, he, hb, rfl, rfl⟩, ?_⟩, ?_⟩
      · rw [Entry.ofDictionary_document, imageReference_uuid _ (h.pipeline.fileName e he _ hf).2]
        rfl
      · rintro id ⟨d, hd, hr⟩
        obtain ⟨e', he', hb', rfl, rfl⟩ := (document_iff h).mp hd
        have hf₁ := (onBoard_fileName h he' hb').2
        rw [Entry.ofDictionary_document, imageReference_uuid _ (h.pipeline.fileName e' he' _ hf₁).2] at hr
        have hff : e'.word.imageFileName = e.word.imageFileName := by simpa using hr
        rw [h.pipeline.own e' he' e he _ (hff ▸ hf₁) hf]

/-- The document of an add has been deleted. -/
theorem deleted_iff (h : Moved s) {e : Entry} (he : e ∈ s.board) :
    (∃ t screen o, .served t (.deleteDocument screen e.uid) (.success o) ∈ s.app.log) ↔ e.deleted = true := by
  rw [h.agrees.deleted]
  constructor
  · rintro ⟨e', he', hu, hd⟩
    rwa [Board.eq_of_uid h.agrees.uids he he' hu.symm]
  · exact fun hd => ⟨e, he, rfl, hd⟩

/-- The image of an add has been deleted. -/
theorem imageDeleted_iff (h : Moved s) {e : Entry} (he : e ∈ s.board) {f : String}
    (hf : e.fileName = some f) :
    (∃ t screen o, .served t (.deleteObject screen f) (.success o) ∈ s.app.log) ↔ e.imageDeleted = true := by
  rw [h.agrees.imageDeleted]
  constructor
  · rintro ⟨e', he', hf', hd⟩
    rwa [h.pipeline.own e he e' he' f hf hf']
  · exact fun hd => ⟨e, he, hf, hd⟩

/-- In a state without requests an uploaded add has failed exactly when it is not written. -/
theorem addFailed_iff (h : Moved s) (hq : s.Quiet) {e : Entry} (he : e ∈ s.board) {f u : String}
    (hf : e.fileName = some f) (hu : e.url = some u) :
    AddFailed s.app.log e.saved ↔ e.writtenTime = none := by
  have hwritten : Written s.app.log e.saved ↔ e.writtenTime.isSome = true := by
    constructor
    · rintro ⟨t, time, u, f, o, hev⟩
      obtain ⟨e', he', hs, ht, -⟩ := (h.agrees.written _ _ _ _).mp ⟨t, o, hev⟩
      obtain rfl := Board.eq_of_uid h.agrees.uids he' he (congrArg Word.uid hs)
      simp [ht]
    · intro ht
      obtain ⟨time, ht⟩ := Option.isSome_iff_exists.mp ht
      obtain ⟨t, o, hev⟩ := (h.agrees.written e.saved time u f).mpr ⟨e, he, rfl, ht, hu, hf⟩
      exact ⟨t, time, u, f, o, hev⟩
  obtain ⟨t, data, hev⟩ := (h.agrees.uploaded e.saved f u).mpr ⟨e, he, rfl, hf, hu⟩
  rw [← Option.not_isSome_iff_eq_none, ← hwritten]
  constructor
  · exact fun hn => (h.fates.fails _ hn).2.1
  · intro hn
    rcases h.fates.ends e.saved ⟨t, f, data, u, hev⟩ with hw | hn' | ⟨p, hp, -⟩
    · exact absurd hw hn
    · exact hn'
    · rw [hq] at hp
      cases hp

/-- What a log says of an uploaded add is complete exactly when it has both its document
and its image, or neither. -/
theorem completed_entry (h : Moved s) (hq : s.Quiet) {e : Entry} (he : e ∈ s.board) {f u : String}
    (hf : e.fileName = some f) (hu : e.url = some u) :
    (¬ AddFailed s.app.log e.saved ∧
      ((∃ t screen o, .served t (.deleteDocument screen e.saved.uid) (.success o) ∈ s.app.log) ↔
        ∃ t screen o, .served t (.deleteObject screen f) (.success o) ∈ s.app.log)) ↔
      (e.onBoard = true ↔ e.hasImage = true) := by
  have hdel := h.provenance.deleted e he
  rw [addFailed_iff h hq he hf hu, show e.saved.uid = e.uid from rfl, deleted_iff h he,
    imageDeleted_iff h he hf,
    Entry.onBoard, Entry.hasImage, hu]
  cases ht : e.writtenTime <;> cases hd : e.deleted <;> cases hi : e.imageDeleted <;> simp_all

/-- In a state without requests each add has both or neither exactly when every add
that uploaded went on to its end, and deletions were complete. -/
theorem completed_iff (h : Moved s) (hq : s.Quiet) :
    Completed s.app.log ↔ ∀ e ∈ s.board, e.onBoard = true ↔ e.hasImage = true := by
  constructor
  · intro hc e he
    cases hu : e.url with
    | none =>
      -- nothing has happened to an add without an upload
      have ht : e.writtenTime = none := by
        by_contra ht
        have := h.pipeline.uploaded e he (Option.ne_none_iff_isSome.mp ht)
        simp [hu] at this
      simp [Entry.onBoard, Entry.hasImage, hu, ht]
    | some u =>
      obtain ⟨f, hf⟩ := Option.isSome_iff_exists.mp (h.pipeline.named e he (by simp [hu]))
      exact (completed_entry h hq he hf hu).mp
        (hc e.saved f u ((h.agrees.uploaded _ f u).mpr ⟨e, he, rfl, hf, hu⟩))
  · intro hall w f u hup
    obtain ⟨e, he, rfl, hf, hu⟩ := (h.agrees.uploaded _ _ _).mp hup
    exact (completed_entry h hq he hf hu).mpr (hall e he)

end Correspondence

/-- When no request is in flight, every word document names the object that its own
add uploaded, no two name the same, and the correspondence is one-to-one exactly when
no add failed after its upload and document and image were deleted together. -/
theorem words_images_iff {s : State} (h : Reach s) (hq : s.Quiet) :
    (∀ id d, s.cloud.documents.lookup (COLLECTION_BOARD s.app.uid ++ [id]) = some d →
      ∃ w t data, w.uid = id ∧
        .served t (.putData w (Word.ofDictionary d).imageFileName data)
        (.success (Word.ofDictionary d).imageUrl) ∈ s.app.log) ∧
    (∀ id d id' d', s.cloud.documents.lookup (COLLECTION_BOARD s.app.uid ++ [id]) = some d →
      s.cloud.documents.lookup (COLLECTION_BOARD s.app.uid ++ [id']) = some d' →
      (Word.ofDictionary d).imageFileName = (Word.ofDictionary d').imageFileName → id = id') ∧
    (OneToOne s.app.uid s.cloud ↔ Completed s.app.log) := by
  have hm := Reach.moved h
  refine ⟨fun id d hd => ?_, fun id d id' d' hd hd' he => ?_,
    (oneToOne_iff hm).trans (completed_iff hm hq).symm⟩
  · obtain ⟨e, he, hb, rfl, rfl⟩ := (document_iff hm).mp hd
    obtain ⟨hu, hf⟩ := onBoard_fileName hm he hb
    obtain ⟨u, hu⟩ := Option.isSome_iff_exists.mp hu
    obtain ⟨t, data, hev⟩ := (hm.agrees.uploaded e.saved _ u).mpr ⟨e, he, rfl, hf, hu⟩
    refine ⟨e.saved, t, data, rfl, ?_⟩
    rwa [Entry.ofDictionary_document, show e.word.imageUrl = u by simp [Entry.word, hu]]
  · obtain ⟨e, hm₁, hb, rfl, rfl⟩ := (document_iff hm).mp hd
    obtain ⟨e', hm₂, hb', rfl, rfl⟩ := (document_iff hm).mp hd'
    have hf := (onBoard_fileName hm hm₁ hb).2
    have hf' := (onBoard_fileName hm hm₂ hb').2
    rw [Entry.ofDictionary_document, Entry.ofDictionary_document] at he
    rw [hm.pipeline.own e hm₁ e' hm₂ _ hf (he ▸ hf')]

/-! ## An image that no document names -/

/-- The upload succeeds and the lookup of its URL fails. -/
def leakActions : List Action :=
  (addActions 0 "cat" uuid₁ uuid₂ "2022-10-01T09:00:00Z").take 5 ++ [.serve 3 .failure, .answer 3 ""]

/-- Nothing is in flight, and an add has an image and no word on the board. -/
theorem leaked_end : ∃ s, Runs step anyStep (State.empty (some phone)) leakActions s ∧ s.app.net = [] ∧
    ¬ ∀ e ∈ s.board, (e.onBoard = true ↔ e.hasImage = true) :=
  exists_runs (P := fun _ => _ ∧ _) (by decide +kernel)

theorem leakActions_run : (run step (State.empty (some phone)) leakActions).isSome = true :=
  isSome_of_exists_runs leaked_end

def leaked : State := (run step (State.empty (some phone)) leakActions).get leakActions_run

theorem leaked_reach : Reach leaked := reach_of_run (start_empty _) leakActions_run

theorem leaked_facts : leaked.Quiet ∧ ¬ ∀ e ∈ leaked.board, (e.onBoard = true ↔ e.hasImage = true) := by
  rw [leaked]
  exact (get_of_exists_runs leaked_end leakActions_run).2

theorem image_leaks : ¬ ∀ s, Reach s → s.Quiet → OneToOne s.app.uid s.cloud := by
  intro h
  have hall := (oneToOne_iff (Reach.moved leaked_reach)).mp (h leaked leaked_reach leaked_facts.1)
  exact leaked_facts.2 hall

theorem words_images_leaked :
    (∀ id d, leaked.cloud.documents.lookup (COLLECTION_BOARD leaked.app.uid ++ [id]) = some d →
      ∃ w t data, w.uid = id ∧ .served t (.putData w (Word.ofDictionary d).imageFileName data)
        (.success (Word.ofDictionary d).imageUrl) ∈ leaked.app.log) ∧
    (∀ id d id' d', leaked.cloud.documents.lookup (COLLECTION_BOARD leaked.app.uid ++ [id]) = some d →
      leaked.cloud.documents.lookup (COLLECTION_BOARD leaked.app.uid ++ [id']) = some d' →
      (Word.ofDictionary d).imageFileName = (Word.ofDictionary d').imageFileName → id = id') ∧
    (OneToOne leaked.app.uid leaked.cloud ↔ Completed leaked.app.log) :=
  words_images_iff leaked_reach leaked_facts.1

end BlindBoard
