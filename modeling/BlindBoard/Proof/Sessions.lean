import BlindBoard.Proof.Loader

/-!
# Words and images of one compose sheet

Each Save tap starts an add of its own, and nothing but the loader over the sheet
keeps the user from a second tap; a loader that another screen has does not
(`two_words`). Where a word is saved only while no other screen has the loader or
an operation pending, a sheet leads to one word and one image at most
(`one_word_a_sheet`).
-/

namespace BlindBoard

open Lib Spec

/-- The compose sheet that is presented. -/
def App.sheet (a : App) : Option Nat := match a.modal with
  | some (.addWord n) => some n
  | _ => none

/-- The controls of a screen can be tapped while the loader is not over it, those
of the navigation bar always. -/
def Touchable (s : State) : Action → Prop
  | .saveBoard .. => ∀ n ∈ s.app.sheet, s.app.loader ≠ some (.addWord n)
  | .addComment => ∀ n ∈ s.app.pushed, s.app.loader ≠ some (.detail n)
  | .commentRow screen _ select => select = true → s.app.loader ≠ some (.detail screen)
  | .didSelectRow _ | .updateData => s.app.loader ≠ some .board
  | _ => True

instance (s : State) : DecidablePred (Touchable s)
  | .saveBoard .. => inferInstanceAs (Decidable (∀ n ∈ s.app.sheet, s.app.loader ≠ some (.addWord n)))
  | .addComment => inferInstanceAs (Decidable (∀ n ∈ s.app.pushed, s.app.loader ≠ some (.detail n)))
  | .commentRow screen _ select =>
    inferInstanceAs (Decidable (select = true → s.app.loader ≠ some (.detail screen)))
  | .didSelectRow _ | .updateData => inferInstanceAs (Decidable (s.app.loader ≠ some .board))
  | .viewDidLoad | .viewWillAppear | .writing | .swipeDown | .boardRow _ | .back | .deleteWord | .cancelDelete
  | .confirmDelete | .saveComment .. | .reloadTable _ | .mainQueue | .serve
      .. | .searched .. | .answer .. => .isTrue trivial

/-- The operation is an add that was started on the sheet. -/
def Op.startedOn (log : List Event) (sheet : Nat) : Op → Bool
  | .add w => .saved sheet w ∈ log
  | .delete _ => false

/-- A word is saved only while no other screen has the loader or an operation pending. -/
def SavesAlone (s : State) : Action → Prop
  | .saveBoard .. => ∀ n ∈ s.app.sheet, (∀ v ∈ s.app.loader, v = .addWord n) ∧
    ∀ t ∈ s.app.tasks, t.awaited = true → t.op.startedOn s.app.log n = true
  | _ => True

instance (s : State) : DecidablePred (SavesAlone s)
  | .saveBoard .. => inferInstanceAs (Decidable (∀ n ∈ s.app.sheet, (∀ v ∈ s.app.loader, v = .addWord n) ∧
    ∀ t ∈ s.app.tasks, t.awaited = true → t.op.startedOn s.app.log n = true))
  | .viewDidLoad | .viewWillAppear | .updateData | .writing | .swipeDown | .boardRow
      _ | .didSelectRow _ | .back
  | .deleteWord | .cancelDelete | .confirmDelete | .addComment | .saveComment
      .. | .commentRow .. | .reloadTable _
  | .mainQueue | .serve .. | .searched .. | .answer .. => .isTrue trivial

/-- The upload of the image of a word saved on the sheet has been carried out. -/
def UploadedFrom (log : List Event) (sheet : Nat) (w : Word) (fileName : String) : Prop :=
  .saved sheet w ∈ log ∧ ∃ t imageData url, .served t (.putData w fileName imageData) (.success url) ∈ log

/-- The document of a word saved on the sheet has been written. -/
def WrittenFrom (log : List Event) (sheet : Nat) (w : Word) : Prop :=
  .saved sheet w ∈ log ∧ ∃ t time url fileName o, .served t (.setData w time url fileName) (.success o) ∈ log

/-! ## Uploads and the board -/

/-- An upload that has started has named the image of its add. -/
theorem Moved.named {s : State} (h : Moved s) : ∀ t w f data, .issued t (.putData w f data) ∈ s.app.log →
    ∃ e ∈ s.board, e.saved = w ∧ e.fileName = some f := by
  refine h.inv (I := fun s => ∀ t w f data, .issued t (.putData w f data) ∈ s.app.log →
    ∃ e ∈ s.board, e.saved = w ∧ e.fileName = some f) (fun s hs => ?_) fun s s' hr ih hm => ?_
  · rw [hs.launch]
    simp [App.launch]
  · intro t w f data hi
    have old (hi : .issued t (.putData w f data) ∈ s.app.log) : ∃ e ∈ s'.board,
      e.saved = w ∧ e.fileName = some f := by
      obtain ⟨e, he, hw, hf⟩ := ih t w f data hi
      obtain ⟨e', he', hl⟩ := hr.pipeline.later hm e he
      exact ⟨e', he', by rw [← hw]; simp [Entry.saved, hl.title, hl.content, hl.uid], hl.fileName f hf⟩
    cases hm with
    | @uploading p v hp hc fileName _ imageData =>
      rcases List.mem_append.mp hi with hi | hi
      · exact old hi
      · cases List.mem_singleton.mp hi
        obtain ⟨e, he, ha, -⟩ := hr.pipeline.pending p hp w (by rw [hc]; rfl)
        refine ⟨{ e with fileName := some fileName.uuidString }, ?_, ha, rfl⟩
        rw [State.board, App.issue, Board.ofLog_append]
        exact Board.mem_update_of_eq he ha.uid
    | saved sheet title content uid url =>
      refine old ?_
      cases url
      · simpa [App.addContent, App.record] using hi
      · simpa [App.addContent, App.record, App.issue] using hi
    | issued call hA hn =>
      refine old ?_
      rcases List.mem_append.mp hi with hi | hi
      · exact hi
      · cases List.mem_singleton.mp hi
        cases hA
    | fresh | number | screens | rows | dropped => exact old hi
    | served => exact old (by simpa [State.serve] using hi)
    | _ => exact old (by simpa [App.record, App.issue, App.take, App.boardLoaded] using hi)

/-- An image is named by the start of its upload. -/
theorem Spec.Board.issued_fileName {log : List Event} {e : Entry} {f : String} (he : e ∈ Board.ofLog log)
    (hf : e.fileName = some f) : ∃ t w data, .issued t (.putData w f data) ∈ log ∧ w.uid = e.uid := by
  induction log using List.reverseRecOn generalizing e with
  | nil => cases he
  | append_singleton log event ih =>
    rw [ofLog_append] at he
    have old {e : Entry} (he : e ∈ ofLog log) (hf : e.fileName = some f) :
        ∃ t w data, .issued t (.putData w f data) ∈ log ++ [event] ∧ w.uid = e.uid := by
      obtain ⟨t, w, data, hi, hu⟩ := ih he hf
      exact ⟨t, w, data, List.mem_append_left _ hi, hu⟩
    -- a change of the board that names no image
    have marked {g : Entry → Entry} (he : e ∈ (ofLog log).map g)
      (hg : ∀ e, (g e).fileName = e.fileName ∧ (g e).uid = e.uid) :
        ∃ t w data, .issued t (.putData w f data) ∈ log ++ [event] ∧ w.uid = e.uid := by
      obtain ⟨e₀, he₀, rfl⟩ := List.mem_map.mp he
      rw [(hg e₀).1] at hf
      rw [(hg e₀).2]
      exact old he₀ hf
    unfold step at he
    split at he
    · rcases List.mem_append.mp he with he | he
      · exact old he hf
      · rw [List.mem_singleton.mp he] at hf
        cases hf
    next t w fileName data =>
      rcases mem_update_cases he with ⟨he, -⟩ | ⟨e₀, he₀, hu, rfl⟩
      · exact old he hf
      · cases hf
        exact ⟨t, w, data, by simp, hu.symm⟩
    all_goals first | exact old he hf | exact marked he fun e => by split <;> exact ⟨rfl, rfl⟩

/-! ## One live add a sheet -/

/-- The word was saved on the sheet, and its upload is to come or has started. -/
def Desk.Live (d : Desk) (sheet : Nat) (w : Word) : Prop := .saved sheet w ∈ d.notes ∧
  (⟨.add w, true⟩ ∈ d.tasks ∨ ∃ t f data, .issued t (.putData w f data) ∈ d.notes)

/-- A sheet has one live add at most, and while it is presented, the loader is over
it and no other operation pending. -/
structure Desk.OneEach (d : Desk) : Prop where
  unique : ∀ n w w', d.Live n w → d.Live n w' → w = w'
  shown : ∀ n w, d.modal = some (.addWord n) → d.Live n w →
    d.hud = some (.addWord n) ∧ ∀ t ∈ d.tasks, t.awaited = true → t.op = .add w

namespace Desk.OneEach

variable {d : Desk}

/-- No add becomes live, and no sheet is presented. -/
theorem sub (h : d.OneEach) {modal : Option Modal} {hud : Option View}
    {tasks : Multiset Task} {notes : List Event}
    (hl : ∀ n w, Desk.Live ⟨modal, hud, tasks, notes⟩ n w → d.Live n w)
    (hm : (modal = d.modal ∧ hud = d.hud ∧ ∀ t ∈ tasks, t ∈ d.tasks) ∨
      ∀ n w, modal = some (.addWord n) → ¬ Desk.Live ⟨modal, hud, tasks, notes⟩ n w) :
    OneEach ⟨modal, hud, tasks, notes⟩ where
  unique n w w' hw hw' := h.unique n w w' (hl n w hw) (hl n w' hw')
  shown n w hmn hw := by
    rcases hm with ⟨rfl, rfl, ht⟩ | hm
    · obtain ⟨hh, hts⟩ := h.shown n w hmn (hl n w hw)
      exact ⟨hh, fun t htm => hts t (ht t htm)⟩
    · exact absurd hw (hm n w hmn)

end Desk.OneEach

/-- A word that has been saved has an identifier that is in use. -/
theorem Moved.saved_used {s : State} (h : Moved s) {n : Nat} {w : Word} (hw : .saved n w ∈ s.app.log) :
    w.uid ∈ s.used := by
  obtain ⟨e, he, -, rfl⟩ := (h.agrees.saved n w).mp hw
  exact (h.pipeline.uid e he).1

theorem App.mem_notes {a : App} {e : Event} : e ∈ a.desk.notes ↔ e ∈ a.log ∧ e.noted = true := List.mem_filter

section Turn

variable {s s' : State} {a : Action}

theorem App.sheet_eq {a : App} {n : Nat} (h : a.modal = some (.addWord n)) : a.sheet = some n := by
  rw [App.sheet, h]

/-- No word of a sheet is live when Save is tapped on it: the loader would be over it. -/
theorem not_live_saved (hO : s.app.desk.OneEach) {title content : Option String}
    {uid : UUID} {url : Bool} {n : Nat}
    (ht : Touchable s (.saveBoard title content uid url)) (hm : s.app.modal = some (.addWord n)) (w : Word) :
    ¬ s.app.desk.Live n w := by
  intro hl
  have hh : s.app.hud = some (.addWord n) := (hO.shown n w hm hl).1
  exact ht n (App.sheet_eq hm) (by simp [App.loader, hh, App.viewAlive, hm])

/-- A word is saved on a sheet that has no live word. -/
theorem oneEach_saved (hr : Reach s) {title content : Option String} {uid : UUID}
    {url : Bool} {sheet : Nat} {w : Word}
    (ht : Touchable s (.saveBoard title content uid url))
    (ha : SavesAlone s (.saveBoard title content uid url))
    (hO : s.app.desk.OneEach) (hm : s.app.modal = some (.addWord sheet)) (hw : w.uid = uid.uuidString)
    (hf : uid.uuidString ∉ s.used)
    (h : s'.app.desk = { s.app.desk with
      hud := (s.app.showLoader (.addWord sheet) true).hud
      tasks := (if url then {⟨.add w, true⟩} else 0) + s.app.desk.tasks
      notes := s.app.desk.notes ++ [.saved sheet w] }) : s'.app.desk.OneEach := by
  have hlive := not_live_saved hO ht hm
  have hsheet := App.sheet_eq hm
  have hfresh (n : Nat) : .saved n w ∉ s.app.desk.notes := fun hn =>
    hf (hw ▸ (Reach.moved hr).saved_used (App.mem_notes.mp hn).1)
  have tasks {t : Task} (htm : t ∈ (if url then {⟨.add w, true⟩} else 0) + s.app.desk.tasks) :
      t = ⟨.add w, true⟩ ∨ t ∈ s.app.desk.tasks := by
    rcases Multiset.mem_add.mp htm with htm | htm
    · split at htm
      · exact .inl (Multiset.mem_singleton.mp htm)
      · simp at htm
    · exact .inr htm
  -- a live word is the new one, or was live before on another sheet
  have live {n : Nat} {v : Word} (hl : s'.app.desk.Live n v) : n = sheet ∧ v = w ∨ s.app.desk.Live n v := by
    rw [h] at hl
    obtain ⟨hn, hl⟩ := hl
    rcases List.mem_append.mp hn with hn | hn
    · refine .inr ⟨hn, ?_⟩
      rcases hl with hl | ⟨t, f, data, hi⟩
      · rcases tasks hl with hl | hl
        · cases hl
          exact absurd hn (hfresh n)
        · exact .inl hl
      · exact .inr ⟨t, f, data, by simpa using hi⟩
    · cases List.mem_singleton.mp hn
      exact .inl ⟨rfl, rfl⟩
  constructor
  · intro n v v' hv hv'
    rcases live hv with ⟨rfl, rfl⟩ | hv <;> rcases live hv' with ⟨hn, rfl⟩ | hv'
    · rfl
    · exact absurd hv' (hlive _)
    · exact absurd (hn ▸ hv) (hlive _)
    · exact hO.unique n v v' hv hv'
  · intro n v hmn hv
    rw [h] at hmn ⊢
    cases hm.symm.trans hmn
    rcases live hv with ⟨-, rfl⟩ | hv
    · have hl : s.app.loader = none := by
        cases hl : s.app.loader with
        | none => rfl
        | some v => exact absurd (hl.trans (congrArg some ((ha sheet hsheet).1 v hl))) (ht sheet hsheet)
      refine ⟨by simp [App.showLoader, hl], fun t htm haw => ?_⟩
      rcases tasks htm with rfl | htm
      · rfl
      · obtain ⟨o, _⟩ := t
        have hs := (ha sheet hsheet).2 _ htm haw
        cases o with
        | delete n => cases hs
        | add w' =>
          obtain rfl : _ = true := haw
          exact absurd ⟨App.mem_notes.mpr ⟨by simpa [Op.startedOn] using hs, rfl⟩, .inl htm⟩ (hlive w')
    · exact absurd hv (hlive v)

theorem Turn.oneEach (h : Turn s s' a) (hr : Reach s) (ht : Touchable s a) (ha : SavesAlone s a)
    (hO : s.app.desk.OneEach) : s'.app.desk.OneEach := by
  have hm := Reach.moved hr
  cases h with
  | idle h => exact h ▸ hO
  | presented m _ _ hn h =>
    rw [h]
    refine hO.sub (fun _ _ hl => hl) (.inr fun n w hmn hl => ?_)
    obtain ⟨rfl, -⟩ := hn n (Option.some.inj hmn)
    exact lt_irrefl _ ((Reach.numbered hr).saved _ w hl.1)
  | left h =>
    rw [h]
    exact hO.sub (fun _ _ hl => hl) (.inr fun n w hm _ => by cases hm)
  | saved sheet w hmod _ hw hf h => exact oneEach_saved hr ht ha hO hmod hw hf h
  | deleted screen _ h =>
    rw [h]
    exact hO.sub (fun n w hl => ⟨hl.1, hl.2.imp (fun hl => by simpa using hl) id⟩)
      (.inr fun n w hm _ => by cases hm)
  | ended t tasks hts _ h =>
    rw [h]
    refine hO.sub (fun n w hl => ⟨hl.1, hl.2.imp (fun hl => ?_) id⟩) (.inl ⟨rfl, rfl, fun t htm => ?_⟩)
    · exact hts ▸ Multiset.mem_cons_of_mem hl
    · exact hts ▸ Multiset.mem_cons_of_mem htm
  | notFound p w tasks hp hc hts h =>
    rw [h]
    have sub {n : Nat} {v : Word} (hl : Desk.Live { s.app.desk with hud := none, tasks } n v) :
      s.app.desk.Live n v :=
      ⟨hl.1, hl.2.imp (fun hl => hts ▸ Multiset.mem_cons_of_mem hl) id⟩
    refine hO.sub (fun _ _ => sub) (.inr fun n v hmn hl => ?_)
    -- the live word would be the one whose search has found nothing
    obtain rfl : w = v := Op.add.inj ((hO.shown n v hmn (sub hl)).2 _ (hts ▸ Multiset.mem_cons_self _ _) rfl)
    rcases hl.2 with hl | ⟨t, f, data, hi⟩
    · exact hm.add_once hts hl
    · obtain ⟨e, he, hw, hf⟩ := hm.named t w f data (App.mem_notes.mp hi).1
      have hA := (hm.pipeline.awaits hp (by rw [hc]; rfl) he (congrArg Word.uid hw)).2
      rw [Awaits, hc] at hA
      cases hA.1.symm.trans hf
  | uploading t w f data hts h =>
    rw [h]
    refine hO.sub (fun n v hl => ?_) (.inl ⟨rfl, rfl, fun _ h => h⟩)
    obtain ⟨hn, hl⟩ := hl
    refine ⟨by simpa using hn, ?_⟩
    rcases hl with hl | ⟨t', f', data', hi⟩
    · exact .inl hl
    · rcases List.mem_append.mp hi with hi | hi
      · exact .inr ⟨t', f', data', hi⟩
      · cases List.mem_singleton.mp hi
        exact .inl hts
  | completed w tasks hts h =>
    rw [h]
    refine hO.sub (fun n v hl => ?_) (.inr fun n w hm _ => by cases hm)
    obtain ⟨hn, hl⟩ := hl
    refine ⟨by simpa using hn, ?_⟩
    rcases hl with hl | ⟨t, f, data, hi⟩
    · exact .inl (hts ▸ Multiset.mem_cons_of_mem (by simpa using hl))
    · exact .inr ⟨t, f, data, by simpa using hi⟩
  | popped screen tasks hts _ h =>
    rw [h]
    have sub {n : Nat} {v : Word} (hl : Desk.Live { s.app.desk with hud := none, tasks } n v) :
      s.app.desk.Live n v :=
      ⟨hl.1, hl.2.imp (fun hl => hts ▸ Multiset.mem_cons_of_mem hl) id⟩
    refine hO.sub (fun _ _ => sub) (.inr fun n v hmn hl => ?_)
    cases (hO.shown n v hmn (sub hl)).2 _ (hts ▸ Multiset.mem_cons_self _ _) rfl

end Turn

/-- An add whose image is named is live. -/
theorem Moved.live {s : State} (h : Moved s) {n : Nat} {w : Word} (hs : .saved n w ∈ s.app.log) {e : Entry}
    (he : e ∈ s.board) (hw : e.saved = w) {f : String} (hf : e.fileName = some f) : s.app.desk.Live n w := by
  obtain ⟨t, w', data, hi, hu⟩ := Board.issued_fileName he hf
  obtain ⟨e', he', rfl, -⟩ := h.named t w' f data hi
  obtain rfl := Board.eq_of_uid h.pipeline.uids he' he hu
  subst hw
  exact ⟨App.mem_notes.mpr ⟨hs, rfl⟩, .inr ⟨t, f, data, App.mem_notes.mpr ⟨hi, rfl⟩⟩⟩

/-- Where a control of a screen is tapped only while the loader is not over it, and
Save only while no other screen has the loader or an operation pending, a compose
sheet leads to one uploaded image and one written word at most. -/
theorem one_word_a_sheet {s : State}
    (h : Reachable step Start (fun s a => Touchable s a ∧ SavesAlone s a) s) (n : Nat) :
    (∀ w w' f f', UploadedFrom s.app.log n w f → UploadedFrom s.app.log n w' f' → w = w' ∧ f = f') ∧
    ∀ w w', WrittenFrom s.app.log n w → WrittenFrom s.app.log n w' → w = w' := by
  have hm := Reach.moved (h.mono fun _ _ _ => trivial)
  have hO : s.app.desk.OneEach := by
    refine h.inv (I := fun s => s.app.desk.OneEach) (fun s hs => ?_) fun s a s' hr hO ha hs => ?_
    · rw [hs.launch]
      constructor <;> simp [Desk.Live, App.desk, App.launch]
    · have hr : Reach s := hr.mono fun _ _ _ => trivial
      exact (Reach.turn hr hs).oneEach hr ha.1 ha.2 hO
  constructor
  · rintro w w' f f' ⟨hs, t, data, url, hu⟩ ⟨hs', t', data', url', hu'⟩
    obtain ⟨e, he, hw, hf, -⟩ := (hm.agrees.uploaded w f url).mp ⟨t, data, hu⟩
    obtain ⟨e', he', hw', hf', -⟩ := (hm.agrees.uploaded w' f' url').mp ⟨t', data', hu'⟩
    obtain rfl := hO.unique n w w' (hm.live hs he hw hf) (hm.live hs' he' hw' hf')
    obtain rfl := Board.eq_of_uid hm.pipeline.uids he he' (congrArg Word.uid (hw.trans hw'.symm))
    exact ⟨rfl, Option.some.inj (hf.symm.trans hf')⟩
  · rintro w w' ⟨hs, t, time, url, f, o, hu⟩ ⟨hs', t', time', url', f', o', hu'⟩
    obtain ⟨e, he, hw, -, -, hf⟩ := (hm.agrees.written w time url f).mp ⟨t, o, hu⟩
    obtain ⟨e', he', hw', -, -, hf'⟩ := (hm.agrees.written w' time' url' f').mp ⟨t', o', hu'⟩
    exact hO.unique n w w' (hm.live hs he hw hf) (hm.live hs' he' hw' hf')

/-! ## Two words of one sheet -/

/-- Save is tapped again while another screen has the loader, and both adds complete. -/
def twiceActions : List Action :=
  crowdedActions ++ [.saveBoard (some "dog") (some "a word") uuid₄ true, .searched 11 found uuid₅,
    .searched 12 found uuid₆, .serve 13 (.success ""), .serve 14 (.success ""), .answer 13 "", .answer 14 "",
    .serve 15 (.success ""), .serve 16 (.success ""), .answer 15 "2022-10-01T10:00:00Z",
    .answer 16 "2022-10-01T10:00:00Z", .serve 17 (.success ""), .serve 19 (.success "")]

/-- Both words of sheet 10 are written. -/
theorem twice_end : ∃ s, Runs step Touchable (State.empty (some phone)) twiceActions s ∧
    .saved 10 dog ∈ s.app.log ∧ .saved 10 { dog with uid := uuid₄.uuidString } ∈ s.app.log ∧
    .served 17 (.setData dog "2022-10-01T10:00:00Z" "" uuid₅.uuidString) (.success "") ∈ s.app.log ∧
    .served 19
      (.setData { dog with uid := uuid₄.uuidString } "2022-10-01T10:00:00Z" "" uuid₆.uuidString)
      (.success "") ∈ s.app.log :=
  exists_runs (P := fun _ => _ ∧ _ ∧ _ ∧ _) (by decide +kernel)

theorem twiceActions_run : (run step (State.empty (some phone)) twiceActions).isSome = true :=
  isSome_of_exists_runs twice_end

def twice : State := (run step (State.empty (some phone)) twiceActions).get twiceActions_run

theorem twice_touchable : Reachable step Start Touchable twice :=
  ⟨_, twiceActions, start_empty _, (get_of_exists_runs twice_end twiceActions_run).1⟩

theorem twice_facts : .saved 10 dog ∈ twice.app.log ∧
    .saved 10 { dog with uid := uuid₄.uuidString } ∈ twice.app.log ∧
    .served 17 (.setData dog "2022-10-01T10:00:00Z" "" uuid₅.uuidString) (.success "") ∈ twice.app.log ∧
    .served 19
      (.setData { dog with uid := uuid₄.uuidString } "2022-10-01T10:00:00Z" "" uuid₆.uuidString)
      (.success "") ∈ twice.app.log := by
  rw [twice]
  exact (get_of_exists_runs twice_end twiceActions_run).2

theorem two_words : ¬ ∀ s, Reachable step Start Touchable s → ∀ n,
    (∀ w w' f f', UploadedFrom s.app.log n w f → UploadedFrom s.app.log n w' f' → w = w' ∧ f = f') ∧
    ∀ w w', WrittenFrom s.app.log n w → WrittenFrom s.app.log n w' → w = w' := by
  intro h
  obtain ⟨hs, hs', hw, hw'⟩ := twice_facts
  have he := (h twice twice_touchable 10).2 _ _ ⟨hs, _, _, _, _, _, hw⟩ ⟨hs', _, _, _, _, _, hw'⟩
  exact absurd he (by decide)

/-- A search that finds no photo. -/
def nothingFound : Web := { found with data := some (some (.object [("photos", .array [])])) }

/-- No photo is found for the first word, so Save is tapped again on the sheet, with another one. -/
def retried : List Action :=
  [.writing, .saveBoard (some "xyzzy") (some "a word") uuid₁ true, .searched 1 nothingFound uuid₂,
    .saveBoard (some "cat") (some "a word") uuid₃ true, .searched 2 found uuid₄,
    .serve 3 (.success "https://firebasestorage.googleapis.com/1"), .answer 3 "", .serve 4 (.success ""),
    .answer 4 "2022-10-01T09:00:00Z", .serve 5 (.success "")]

def firstTry : Word := ⟨"xyzzy", "a word", uuid₁.uuidString, "", ""⟩

def secondTry : Word := ⟨"cat", "a word", uuid₃.uuidString, "", ""⟩

theorem retried_end :
    ∃ s, Runs step (fun s a => Touchable s a ∧ SavesAlone s a) (State.empty (some phone)) retried s ∧
    .saved 0 firstTry ∈ s.app.log ∧ .saved 0 secondTry ∈ s.app.log ∧
    .served 3 (.putData secondTry uuid₄.uuidString [255])
      (.success "https://firebasestorage.googleapis.com/1") ∈ s.app.log ∧
    .served 5
      (.setData secondTry "2022-10-01T09:00:00Z" "https://firebasestorage.googleapis.com/1" uuid₄.uuidString)
      (.success "") ∈ s.app.log :=
  exists_runs (P := fun _ => _ ∧ _ ∧ _ ∧ _) (by decide +kernel)

/-- Of the two words saved on the sheet, the second one only is uploaded and written. -/
theorem one_word_a_sheet_retried : ∃ s, Reachable step Start (fun s a => Touchable s a ∧ SavesAlone s a) s ∧
    .saved 0 firstTry ∈ s.app.log ∧ UploadedFrom s.app.log 0 secondTry uuid₄.uuidString ∧
    WrittenFrom s.app.log 0 secondTry ∧
    (∀ w f, UploadedFrom s.app.log 0 w f → w = secondTry ∧ f = uuid₄.uuidString) ∧
    ∀ w, WrittenFrom s.app.log 0 w → w = secondTry := by
  obtain ⟨s, hr, hfirst, hsecond, hup, hwritten⟩ := retried_end
  have h : Reachable step Start (fun s a => Touchable s a ∧ SavesAlone s a) s :=
    ⟨_, retried, start_empty _, hr⟩
  obtain ⟨huploads, hwrites⟩ := one_word_a_sheet h 0
  have hu : UploadedFrom s.app.log 0 secondTry uuid₄.uuidString := ⟨hsecond, _, _, _, hup⟩
  have hw : WrittenFrom s.app.log 0 secondTry := ⟨hsecond, _, _, _, _, _, hwritten⟩
  exact ⟨s, h, hfirst, hu, hw, fun w f h => huploads _ _ _ _ h hu, fun w h => hwrites _ _ h hw⟩

end BlindBoard
