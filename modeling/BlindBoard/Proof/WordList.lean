import BlindBoard.Proof.Agrees

/-!
# The word list refines the board

The answer to `loadData` lists the documents of the words that are on the board when the
query is served, once each and newest first (`Snapshot`), and stays that answer
while other adds and deletions go on; so does the list that is handed to the
completion (`loaded_words`).
-/

namespace BlindBoard

open Lib Spec

/-! ## The answer to `loadData` -/

/-- The document of an add in its collection. -/
def Spec.Entry.row (uid : Option UUID) (e : Entry) : Path × Dictionary :=
  (COLLECTION_BOARD uid ++ [e.uid], e.document)

theorem sortKey_row (uid : Option UUID) (e : Entry) :
    sortKey "writtenTime" (e.row uid) = toLex (toLex (.inr e.time), e.uid) := by
  simp [sortKey, Entry.row, Entry.document, FieldValue.key]

/-- In the order of the documents the times do not grow. -/
theorem time_le_of_ordered {uid : Option UUID} {e e' : Entry}
    (h : Ordered "writtenTime" true (e.row uid) (e'.row uid)) :
    e'.time ≤ e.time := by
  rw [Ordered, if_pos rfl, sortKey_row, sortKey_row, Prod.Lex.toLex_le_toLex] at h
  rcases h with h | ⟨h, -⟩
  · exact (Sum.Lex.inr_lt_inr_iff.mp h).le
  · exact (Sum.inr_injective (toLex.injective h)).le

/-- The query lists the words on the board. -/
theorem Holds.listed {uid : Option UUID} {cloud : Cloud} {b : Board} (h : Holds uid cloud b)
    (hu : (b.map Entry.uid).Nodup) :
    ∃ es : List Entry, es.Perm b.present ∧
      getDocuments cloud.documents (COLLECTION_BOARD uid) "writtenTime" true = es.map (Entry.row uid) ∧
      es.Pairwise fun e e' => e'.time ≤ e.time := by
  have inj : ∀ e ∈ b.present, ∀ e' ∈ b.present, e.row uid = e'.row uid → e = e' := by
    intro e he e' he' hr
    refine Board.eq_of_uid hu (List.mem_filter.mp he).1 (List.mem_filter.mp he').1 ?_
    simpa [Entry.row] using congrArg Prod.fst hr
  have hn : (b.present.map (Entry.row uid)).Nodup :=
    ((hu.of_map).filter Entry.onBoard).map_on inj
  have hmem : ∀ d, d ∈ getDocuments cloud.documents (COLLECTION_BOARD uid) "writtenTime" true ↔
      d ∈ b.present.map (Entry.row uid) := by
    rintro ⟨p, d⟩
    rw [mem_getDocuments]
    constructor
    · rintro ⟨hl, hin, -⟩
      obtain ⟨id, rfl⟩ := inCollection_iff.mp hin
      obtain ⟨e, he, hb, rfl, rfl⟩ := (h.documents id d).mp hl
      exact List.mem_map.mpr ⟨e, List.mem_filter.mpr ⟨he, hb⟩, rfl⟩
    · intro hm
      obtain ⟨e, he, hr⟩ := List.mem_map.mp hm
      cases hr
      obtain ⟨he, hb⟩ := List.mem_filter.mp he
      exact ⟨(h.documents e.uid e.document).mpr ⟨e, he, hb, rfl, rfl⟩, inCollection_append _ _, rfl⟩
  obtain ⟨es, hp, heq⟩ :=
    exists_perm_of_perm_map ((List.perm_ext_iff_of_nodup (nodup_getDocuments ..) hn).mpr hmem)
  refine ⟨es, hp, heq, ?_⟩
  have hs := sorted_getDocuments cloud.documents (COLLECTION_BOARD uid) "writtenTime" true
  rw [heq, List.pairwise_map] at hs
  exact hs.imp time_le_of_ordered

/-- The words on the board are those of which the log says so. -/
theorem mem_present_iff {used : List String} {net : List InFlight} {log : List Event} {b : Board}
    (hP : Pipeline used b net) (h : Board.Agrees log b) (w : Word) :
    (∃ e ∈ b.present, e.word = w) ↔ Listed log w := by
  constructor
  · rintro ⟨e, he, rfl⟩
    obtain ⟨he, hb⟩ := List.mem_filter.mp he
    simp only [Entry.onBoard, Bool.and_eq_true, Bool.not_eq_true'] at hb
    obtain ⟨ht, hd⟩ := hb
    have hurl := hP.uploaded e he ht
    obtain ⟨time, ht⟩ := Option.isSome_iff_exists.mp ht
    obtain ⟨u, hu⟩ := Option.isSome_iff_exists.mp hurl
    obtain ⟨f, hf⟩ := Option.isSome_iff_exists.mp (hP.named e he hurl)
    simp only [Entry.word, hu, hf, Option.getD_some]
    refine ⟨e.saved, rfl, ⟨e.sheet, (h.saved _ _).mpr ⟨e, he, rfl, rfl⟩⟩,
      (h.uploaded _ _ _).mpr ⟨e, he, rfl, hf, hu⟩, ?_, fun t screen o hm => ?_⟩
    · obtain ⟨t, o, hm⟩ := (h.written e.saved time u f).mpr ⟨e, he, rfl, ht, hu, hf⟩
      exact ⟨t, time, o, hm⟩
    · obtain ⟨e', he', hu', hd'⟩ := (h.deleted e.uid).mp ⟨t, screen, o, hm⟩
      rw [Board.eq_of_uid h.uids he' he hu', hd] at hd'
      cases hd'
  · rintro ⟨saved, hw, -, hup, ⟨t, time, o, hm⟩, hn⟩
    obtain ⟨e, he, rfl, hf, hu⟩ := (h.uploaded _ _ _).mp hup
    obtain ⟨e', he', hs', ht, -⟩ := (h.written _ time _ _).mp ⟨t, o, hm⟩
    obtain rfl := Board.eq_of_uid h.uids he he' (congrArg Word.uid hs').symm
    have hword : e.word = w := by
      rw [hw]
      simp [Entry.word, hu, hf, Entry.saved]
    refine ⟨e, List.mem_filter.mpr ⟨he, ?_⟩, hword⟩
    have hd : e.deleted = false := by
      by_contra hd
      obtain ⟨t, screen, o, hm⟩ := (h.deleted e.uid).mpr ⟨e, he, rfl, by simpa using hd⟩
      exact hn t screen o (hword ▸ hm)
    simp [Entry.onBoard, ht, hd]

/-- `documents` are the documents that the query `t`, served when the log had `k`
events, found: those of the words then on the board, newest first. -/
structure Snapshot (uid : Option UUID) (log : List Event) (t k : Nat)
    (documents : List (Path × Dictionary)) : Prop where
  served : ∃ o, log[k]? = some (.served t .loadData (.success o))
  uids : ((Board.ofLog (log.take k)).map Entry.uid).Nodup
  present : ∀ w, (∃ e ∈ (Board.ofLog (log.take k)).present, e.word = w) ↔ Listed (log.take k) w
  listed : ∃ es : List Entry, es.Perm (Board.ofLog (log.take k)).present ∧
    documents = es.map (Entry.row uid) ∧
    es.Pairwise fun e e' => e'.time ≤ e.time

theorem Snapshot.append {uid : Option UUID} {log : List Event} {t k : Nat}
    {documents : List (Path × Dictionary)}
    (h : Snapshot uid log t k documents) (events : List Event) :
    Snapshot uid (log ++ events) t k documents := by
  obtain ⟨⟨o, ho⟩, hu, hp, hl⟩ := h
  have hk : k < log.length := (List.getElem?_eq_some_iff.mp ho).1
  have ht : (log ++ events).take k = log.take k := List.take_append_of_le_length hk.le
  rw [← ht] at hu hp hl
  exact ⟨⟨o, by rw [List.getElem?_append_left hk, ho]⟩, hu, hp, hl⟩

/-- The answers in flight, and the lists handed to the completion, are snapshots. -/
structure Snapshots (s : State) : Prop where
  replies : ∀ p ∈ s.app.net, ∀ documents k, p.call = .loadData → p.answer = some ⟨.documents documents, k⟩ →
    Snapshot s.app.uid s.app.log p.ticket k documents
  loaded : ∀ t k words, .loaded t k words ∈ s.app.log → ∃ documents,
  Snapshot s.app.uid s.app.log t k documents ∧
    words = documents.map fun d => Word.ofDictionary d.2

theorem Snapshots.move {s s' : State} (h : Snapshots s) (hP : Pipeline s.used s.board s.app.net)
    (hV : Provenance s) (hA : Board.Agrees s.app.log s.board) (hm : Move s s') : Snapshots s' := by
  obtain ⟨events, hlog⟩ := hm.log
  have old : ∀ {t k documents}, Snapshot s.app.uid s.app.log t k documents →
      Snapshot s'.app.uid s'.app.log t k documents := by
    intro t k documents hs
    rw [hm.uid, hlog]
    exact hs.append events
  constructor
  · intro p hp documents k hc ha
    rcases hm.answered hp ha with hp | ⟨r, o, ha', hr, hrep, rfl, hl⟩
    · exact old (h.replies p hp documents k hc ha)
    · rw [hc] at hr hl
      cases hr
      obtain ⟨es, hes⟩ := hV.holds.listed hP.uids
      cases o with
      | failure => cases hrep
      | success url =>
        cases hrep
        rw [hm.uid, hl]
        refine ⟨⟨url, by simp⟩, ?_, ?_, ?_⟩ <;> rw [List.take_left]
        · exact hP.uids
        · exact mem_present_iff hP hA
        · exact ⟨es, hes⟩
  · intro t k words hw
    rcases hm.loaded_log hw with hw | ⟨p, hp, documents, hc, ha, rfl, rfl⟩
    · obtain ⟨documents, hs, rfl⟩ := h.loaded t k words hw
      exact ⟨documents, old hs, rfl⟩
    · exact ⟨documents, old (h.replies p hp documents k hc ha), rfl⟩

theorem Moved.snapshots {s : State} (h : Moved s) : Snapshots s := by
  refine h.inv (fun s hs => ?_) fun _ _ hr hsn hm => hsn.move hr.pipeline hr.provenance hr.agrees hm
  constructor <;> rw [hs.launch] <;> simp [App.launch]

/-- Every list that `loadData` hands to its completion is the board at the moment
when its query was served (`k` events had happened): one word for each add whose
document was written and not deleted, as its add saved it and with its own
upload, newest first. -/
theorem loaded_words {s : State} (h : Reach s) {t k : Nat} {words : List Word}
    (hl : .loaded t k words ∈ s.app.log) :
    (∃ o, s.app.log[k]? = some (.served t .loadData (.success o))) ∧
      (∀ w, w ∈ words ↔ Listed (s.app.log.take k) w) ∧ (words.map Word.uid).Nodup ∧
      ∃ es : List Entry, es.Perm (Board.ofLog (s.app.log.take k)).present ∧ words = es.map Entry.word ∧
        es.Pairwise fun e e' => e'.time ≤ e.time := by
  obtain ⟨documents, ⟨hs, hu, hp, es, hperm, rfl, hsort⟩, rfl⟩ := h.moved.snapshots.loaded t k words hl
  have hw : (es.map (Entry.row s.app.uid)).map (fun d => Word.ofDictionary d.2) = es.map Entry.word := by
    simp [Entry.row, Function.comp_def]
  rw [hw]
  refine ⟨hs, fun w => ?_, ?_, es, hperm, rfl, hsort⟩
  · rw [← hp w]
    simp [hperm.mem_iff]
  · rw [List.map_map]
    exact (hperm.map Entry.uid).nodup_iff.mpr ((List.filter_sublist.map Entry.uid).nodup hu)

/-! ## A run in which one word is added and listed -/

def phone : UUID := ⟨"0C3F6E1A-5B7D-4E2F-9A81-6D4C2B1A0F9E", by decide, by decide⟩

def uuid₁ : UUID := ⟨"11111111-1111-4111-8111-111111111111", by decide, by decide⟩

def uuid₂ : UUID := ⟨"22222222-2222-4222-8222-222222222222", by decide, by decide⟩

def uuid₃ : UUID := ⟨"33333333-3333-4333-8333-333333333333", by decide, by decide⟩

def uuid₄ : UUID := ⟨"44444444-4444-4444-8444-444444444444", by decide, by decide⟩

def uuid₅ : UUID := ⟨"55555555-5555-4555-8555-555555555555", by decide, by decide⟩

def uuid₆ : UUID := ⟨"66666666-6666-4666-8666-666666666666", by decide, by decide⟩

/-- A search that finds a photo of one byte. -/
def found : Web where
  data := some (some (.object [("photos",
    .array [.object [("src", .object [("original", .string "https://images.pexels.com/1.jpeg")])]])]))
  url _ := true
  contents _ := some [255]
  image data := some ⟨some data⟩
  jpegData image := image.data

/-- From the tap on the add button to the word's document; the sheet and the
calls get the numbers from `n` on. -/
def addActions (n : Nat) (title : String) (uid fileName : UUID) (now : String) : List Action :=
  [.writing, .saveBoard (some title) (some "a word") uid true, .searched (n + 1) found fileName,
    .serve (n + 2) (.success "https://firebasestorage.googleapis.com/1"), .answer (n + 2) now,
    .serve (n + 3) (.success ""), .answer (n + 3) now, .serve (n + 4) (.success "")]

/-- The list is fetched and shown. -/
def fetchActions (n : Nat) : List Action := [.serve n (.success ""), .answer n ""]

def oneWord : List Action := addActions 0 "cat" uuid₁ uuid₂ "2022-10-01T09:00:00Z" ++ fetchActions 5

def cat : Word :=
  ⟨"cat", "a word", uuid₁.uuidString, "https://firebasestorage.googleapis.com/1", uuid₂.uuidString⟩

/-! ## A run in which two adds interleave -/

def lateDog : Word :=
  ⟨"dog", "a word", uuid₃.uuidString, "https://firebasestorage.googleapis.com/2", uuid₄.uuidString⟩

/-- The dog is saved while the cat is being added, and uploaded first; the cat's fetch is
served between the two documents, and both fetches are answered in order. -/
def twoWords : List Action :=
  [.writing, .saveBoard (some "cat") (some "a word") uuid₁ true, .swipeDown, .writing,
    .saveBoard (some "dog") (some "a word") uuid₃ true, .searched 1 found uuid₂, .searched 3 found uuid₄,
    .serve 5 (.success "https://firebasestorage.googleapis.com/2"),
    .serve 4 (.success "https://firebasestorage.googleapis.com/1"), .answer 5 "",
    .answer 4 "", .serve 7 (.success ""),
    .serve 6 (.success ""), .answer 7 "2022-10-01T09:00:00Z", .serve 8 (.success ""),
    .answer 6 "2022-10-01T10:00:00Z",
    .serve 9 (.success ""), .serve 10 (.success ""), .serve 11 (.success "")] ++ [.answer 9 "", .answer 11 ""]

theorem twoWords_end :
    ∃ s, Runs step anyStep (State.empty (some phone)) twoWords s ∧ .loaded 9 19 [cat] ∈ s.app.log ∧
    .loaded 11 21 [lateDog, cat] ∈ s.app.log ∧ s.app.rows = [lateDog, cat] ∧
    s.app.pushed = none ∧ s.app.modal = none ∧
    s.app.crashed = false :=
  exists_runs (P := fun _ => _ ∧ _ ∧ _ ∧ _ ∧ _ ∧ _) (by decide +kernel)

theorem twoWords_run : (run step (State.empty (some phone)) twoWords).isSome = true :=
  isSome_of_exists_runs twoWords_end

def twoWordsListed : State := (run step (State.empty (some phone)) twoWords).get twoWords_run

theorem twoWords_facts : .loaded 9 19 [cat] ∈ twoWordsListed.app.log ∧
    .loaded 11 21 [lateDog, cat] ∈ twoWordsListed.app.log ∧
    twoWordsListed.app.rows = [lateDog, cat] ∧ twoWordsListed.app.pushed = none ∧
    twoWordsListed.app.modal = none ∧
    twoWordsListed.app.crashed = false := by
  rw [twoWordsListed]
  exact (get_of_exists_runs twoWords_end twoWords_run).2

theorem loaded_words_dog_cat :
    (∃ o, twoWordsListed.app.log[21]? = some (.served 11 .loadData (.success o))) ∧
      (∀ w, w ∈ [lateDog, cat] ↔ Listed (twoWordsListed.app.log.take 21) w) ∧
      ([lateDog, cat].map Word.uid).Nodup ∧
      ∃ es : List Entry, es.Perm (Board.ofLog (twoWordsListed.app.log.take 21)).present ∧
        [lateDog, cat] = es.map Entry.word ∧ es.Pairwise fun e e' => e'.time ≤ e.time :=
  loaded_words (s := twoWordsListed) (reach_of_run (start_empty _) twoWords_run) twoWords_facts.2.1

end BlindBoard
