import BlindBoard.Proof.Provenance

/-!
# The board says what the log says

A board is folded from a log event by event; `Moved.agrees` reads it back: at any
moment an add has been saved, uploaded, written or deleted on the board exactly
when the log has the event.
-/

namespace BlindBoard

open Lib Spec

/-- The board changes at an event of this kind. -/
def Event.recorded : Event → Bool
  | .saved .. | .served _ (.putData ..) (.success _) | .served _ (.setData ..) (.success _)
  | .served _ (.deleteDocument ..) (.success _) | .served _ (.deleteObject ..) (.success _) => true
  | _ => false

namespace Spec.Board.Agrees

variable {log : List Event} {b : Board}

/-- An event that the board does not record. -/
theorem append (h : Agrees log b) (event : Event) (he : event.recorded = false) :
    Agrees (log ++ [event]) b := by
  have same : ∀ e : Event, e.recorded = true → (e ∈ log ++ [event] ↔ e ∈ log) := by
    intro e hr
    simp only [List.mem_append, List.mem_singleton, or_iff_left_iff_imp]
    rintro rfl
    cases hr.symm.trans he
  constructor
  case uids => exact h.uids
  case saved => exact fun sheet w => (same _ rfl).trans (h.saved sheet w)
  case uploaded =>
    exact fun w f u => (exists_congr fun _ => exists_congr fun _ => same _ rfl).trans (h.uploaded w f u)
  case written =>
    exact fun w time u f => (exists_congr fun _ => exists_congr fun _ => same _ rfl).trans
      (h.written w time u f)
  case deleted =>
    exact fun uid =>
      (exists_congr fun _ => exists_congr fun _ => exists_congr fun _ => same _ rfl).trans (h.deleted uid)
  case imageDeleted =>
    exact fun f =>
      (exists_congr fun _ => exists_congr fun _ => exists_congr fun _ => same _ rfl).trans (h.imageDeleted f)

/-- What the log says stays the same, and so does what the changed add says. -/
theorem carried {P P' : Prop} {uid : String} {g : Entry → Entry} {Q : Entry → Prop} (h : P ↔ ∃ e ∈ b, Q e)
    (hlog : P' ↔ P) (hg : ∀ e ∈ b, e.uid = uid → (Q (g e) ↔ Q e)) : P' ↔ ∃ e ∈ b.update uid g, Q e :=
  (hlog.trans h).trans (exists_update_congr hg).symm

/-- An image is named, before it is uploaded. -/
theorem name (h : Agrees log b) {e₀ : Entry} (he₀ : e₀ ∈ b) (hn : e₀.url = none)
    (hi : e₀.imageDeleted = false)
    (f : String) : Agrees log (b.update e₀.uid fun e => { e with fileName := some f }) where
  uids := by
    rw [uids_update]
    exacts [h.uids, fun _ => rfl]
  saved sheet w := carried (h.saved sheet w) .rfl fun _ _ _ => .rfl
  uploaded w f' u := by
    refine carried (h.uploaded w f' u) .rfl fun e he hu => ?_
    obtain rfl := eq_of_uid h.uids he he₀ hu
    simp [hn]
  written w time u f' := by
    refine carried (h.written w time u f') .rfl fun e he hu => ?_
    obtain rfl := eq_of_uid h.uids he he₀ hu
    simp [hn]
  deleted uid := carried (h.deleted uid) .rfl fun _ _ _ => .rfl
  imageDeleted f' := by
    refine carried (h.imageDeleted f') .rfl fun e he hu => ?_
    obtain rfl := eq_of_uid h.uids he he₀ hu
    simp [hi]

theorem start (h : Agrees log b) (sheet : Nat) {w : Word} (hn : ∀ e ∈ b, e.uid ≠ w.uid) (hu : w.imageUrl = "")
    (hf : w.imageFileName = "") :
    Agrees (log ++ [.saved sheet w])
      (b ++ [⟨sheet, w.title, w.content, w.uid, none, none, none, false, false⟩]) where
  uids := uids_append h.uids hn
  saved sheet' w' := by
    obtain ⟨title, content, uid, imageUrl, imageFileName⟩ := w
    cases hu
    cases hf
    simp [or_and_right, exists_or, h.saved, Entry.saved, eq_comm]
  uploaded w f u := by simp [or_and_right, exists_or, h.uploaded]
  written w time u f := by simp [or_and_right, exists_or, h.written]
  deleted uid := by simp [or_and_right, exists_or, h.deleted]
  imageDeleted f := by simp [or_and_right, exists_or, h.imageDeleted]

theorem upload (h : Agrees log b) {e₀ : Entry} (he₀ : e₀ ∈ b) (hn : e₀.url = none)
    (ht : e₀.writtenTime = none)
    {f : String} (hf : e₀.fileName = some f) (t : Nat) (data : Data) (u : String) :
    Agrees (log ++ [.served t (.putData e₀.saved f data) (.success u)])
      (b.update e₀.uid fun e => { e with url := some u }) where
  uids := by
    rw [uids_update]
    exacts [h.uids, fun _ => rfl]
  saved sheet w := carried (h.saved sheet w) (by simp) fun _ _ _ => .rfl
  uploaded w f' u' := by
    refine Iff.trans ?_ (exists_update_new h.uids he₀ (by simp [hn])).symm
    rw [← h.uploaded]
    simp only [List.mem_append, List.mem_singleton, exists_or]
    refine or_congr_right ⟨?_, ?_⟩
    · rintro ⟨_, _, ⟨⟩⟩
      exact ⟨rfl, hf, rfl⟩
    · rintro ⟨rfl, hf', hu⟩
      cases hf.symm.trans hf'
      cases hu
      exact ⟨t, data, rfl⟩
  written w time u' f' := by
    refine carried (h.written w time u' f') (by simp) fun e he hu => ?_
    obtain rfl := eq_of_uid h.uids he he₀ hu
    simp [ht]
  deleted uid := carried (h.deleted uid) (by simp) fun _ _ _ => .rfl
  imageDeleted f' := carried (h.imageDeleted f') (by simp) fun _ _ _ => .rfl

theorem write (h : Agrees log b) {e₀ : Entry} (he₀ : e₀ ∈ b) (hn : e₀.writtenTime = none) {f u : String}
    (hf : e₀.fileName = some f) (hu : e₀.url = some u) (t : Nat) (time o : String) :
    Agrees (log ++ [.served t (.setData e₀.saved time u f) (.success o)])
      (b.update e₀.uid fun e => { e with writtenTime := some time }) where
  uids := by
    rw [uids_update]
    exacts [h.uids, fun _ => rfl]
  saved sheet w := carried (h.saved sheet w) (by simp) fun _ _ _ => .rfl
  uploaded w f' u' := carried (h.uploaded w f' u') (by simp) fun _ _ _ => .rfl
  written w time' u' f' := by
    refine Iff.trans ?_ (exists_update_new h.uids he₀ (by simp [hn])).symm
    rw [← h.written]
    simp only [List.mem_append, List.mem_singleton, exists_or]
    refine or_congr_right ⟨?_, ?_⟩
    · rintro ⟨_, _, ⟨⟩⟩
      exact ⟨rfl, rfl, hu, hf⟩
    · rintro ⟨rfl, ht, hu', hf'⟩
      cases hf.symm.trans hf'
      cases hu.symm.trans hu'
      cases ht
      exact ⟨t, o, rfl⟩
  deleted uid := carried (h.deleted uid) (by simp) fun _ _ _ => .rfl
  imageDeleted f' := carried (h.imageDeleted f') (by simp) fun _ _ _ => .rfl

theorem delete (h : Agrees log b) {e₀ : Entry} (he₀ : e₀ ∈ b) (t screen : Nat) (o : String) :
    Agrees (log ++ [.served t (.deleteDocument screen e₀.uid) (.success o)])
      (b.update e₀.uid fun e => { e with deleted := true }) where
  uids := by
    rw [uids_update]
    exacts [h.uids, fun _ => rfl]
  saved sheet w := carried (h.saved sheet w) (by simp) fun _ _ _ => .rfl
  uploaded w f u := carried (h.uploaded w f u) (by simp) fun _ _ _ => .rfl
  written w time u f := carried (h.written w time u f) (by simp) fun _ _ _ => .rfl
  deleted uid := by
    rcases eq_or_ne uid e₀.uid with rfl | hne
    · refine iff_of_true ⟨t, screen, o, by simp⟩ ⟨_, mem_update_of_eq he₀ rfl, rfl, rfl⟩
    · refine Iff.trans ?_ ((h.deleted uid).trans (exists_update_congr fun e _ hu => ?_).symm)
      · simp [hne]
      · simp [hu, hne.symm]
  imageDeleted f' := carried (h.imageDeleted f') (by simp) fun _ _ _ => .rfl

theorem deleteImage (h : Agrees log b) {e₀ : Entry} (he₀ : e₀ ∈ b) {f : String} (hf : e₀.fileName = some f)
    (t screen : Nat) (o : String) :
    Agrees (log ++ [.served t (.deleteObject screen f) (.success o)])
      (b.map fun e => if e.fileName = some f then { e with imageDeleted := true } else e) := by
  -- what does not depend on whether the image is deleted
  have carried {P P' : Prop} {Q : Entry → Prop} (h : P ↔ ∃ e ∈ b, Q e) (hlog : P' ↔ P)
      (hQ : ∀ e i, Q { e with imageDeleted := i } ↔ Q e) :
      P' ↔ ∃ e ∈ b.map fun e => if e.fileName = some f then { e with imageDeleted := true } else e, Q e := by
    refine (hlog.trans h).trans ?_
    simp only [List.mem_map, exists_exists_and_eq_and]
    refine exists_congr fun e => and_congr_right fun _ => ?_
    split
    · exact (hQ e true).symm
    · exact .rfl
  constructor
  case uids =>
    rw [List.map_map, List.map_congr_left (g := Entry.uid)]
    · exact h.uids
    · intro e _
      simp only [Function.comp_apply]
      split <;> rfl
  case saved => exact fun sheet w => carried (h.saved sheet w) (by simp) fun _ _ => .rfl
  case uploaded => exact fun w f' u => carried (h.uploaded w f' u) (by simp) fun _ _ => .rfl
  case written => exact fun w time u f' => carried (h.written w time u f') (by simp) fun _ _ => .rfl
  case deleted => exact fun uid => carried (h.deleted uid) (by simp) fun _ _ => .rfl
  case imageDeleted =>
    intro f'
    rcases eq_or_ne f' f with rfl | hne
    · refine iff_of_true ⟨t, screen, o, by simp⟩ ⟨_, List.mem_map_of_mem he₀, ?_⟩
      simp [hf]
    · refine Iff.trans ?_ ((h.imageDeleted f').trans ?_)
      · simp [hne]
      · simp only [List.mem_map, exists_exists_and_eq_and]
        refine exists_congr fun e => and_congr_right fun _ => ?_
        split
        next hf' => simp [hf', hne.symm]
        · exact .rfl

end Spec.Board.Agrees

/-! ## The board of a log -/

theorem served_agrees {s : State} (hP : Pipeline s.used s.board s.app.net)
    (hS : Screens s) (hV : Provenance s)
    (h : Board.Agrees s.app.log s.board) {p : InFlight} (hp : p ∈ s.app.net) (ha : p.answer = none)
    (outcome : Outcome) :
    Board.Agrees (s.app.log ++ [.served p.ticket p.call outcome])
      (s.board.step (.served p.ticket p.call outcome)) := by
  obtain ⟨t, call, answer⟩ := p
  cases ha
  cases outcome with
  | failure => cases call <;> exact h.append _ rfl
  | success url =>
    cases call with
    | putData w f data =>
      obtain ⟨e, he, rfl, hA⟩ := hP.pending _ hp w rfl
      exact h.upload he (by simpa [InFlight.done] using hA.2.1) hA.2.2 hA.1 t data url
    | setData w time u f =>
      obtain ⟨e, he, rfl, hA⟩ := hP.pending _ hp w rfl
      obtain ⟨e', he', hu', hurl⟩ := hV.carried _ hp _ u rfl rfl
      obtain rfl := Board.eq_of_uid hP.uids he he' hu'.symm
      exact h.write he (by simpa [InFlight.done] using hA.2.2) hA.1 hurl t time url
    | deleteDocument screen uid =>
      obtain ⟨w, hw, rfl⟩ := hS.calls _ hp rfl
      obtain ⟨e, he, -, rfl⟩ := hV.concerns hw
      exact h.delete he t screen url
    | deleteObject screen f =>
      obtain ⟨w, hw, rfl⟩ := hS.calls _ hp rfl
      obtain ⟨e, he, ht, rfl⟩ := hV.concerns hw
      obtain ⟨f, hf⟩ := Option.isSome_iff_exists.mp (hP.named e he (hP.uploaded e he ht))
      simp only [Entry.word, hf, Option.getD_some]
      exact h.deleteImage he hf t screen url
    | _ => exact h.append _ rfl

theorem Move.agrees {s s' : State} (hm : Move s s') (hP : Pipeline s.used s.board s.app.net) (hS : Screens s)
    (hV : Provenance s) (h : Board.Agrees s.app.log s.board) : Board.Agrees s'.app.log s'.board := by
  cases hm with
  | saved sheet title content uid url hf =>
    have hn : ∀ e ∈ s.board, e.uid ≠ uid.uuidString := fun e he hu => hf (hu ▸ (hP.uid e he).1)
    have := h.start sheet (w := ⟨title, content, uid.uuidString, "", ""⟩) hn rfl rfl
    cases url
    · simp only [App.addContent, App.record, State.board, Board.ofLog_append, Bool.false_eq_true, if_false]
      exact this
    · simp only [App.addContent, App.issue, App.record, State.board, Board.ofLog_append, if_true]
      exact this.append _ rfl
  | @uploading p w hp hc fileName hf imageData =>
    simp only [App.issue, App.take, State.board, Board.ofLog_append]
    obtain ⟨e, he, ha, hA⟩ := hP.pending p hp w (by rw [hc]; rfl)
    rw [Awaits, hc] at hA
    have := (h.append (.issued s.app.next (.putData w fileName.uuidString imageData)) rfl).name he hA.2.1
      (hV.not_deleted he hA.2.2).2 fileName.uuidString
    rwa [ha.uid] at this
  | served hp ha hr outcome =>
    simp only [State.serve, State.board, Board.ofLog_append]
    exact served_agrees hP hS hV h hp ha outcome
  | issued call hA hn =>
    simp only [App.issue, State.board, Board.ofLog_append, Board.step_issued hA.word]
    exact h.append _ rfl
  | fresh | number | screens | rows | dropped => exact h
  | _ =>
    simp only [App.issue, App.take, App.record, App.boardLoaded, State.board, Board.ofLog_append]
    exact h.append _ rfl

theorem Moved.agrees {s : State} (h : Moved s) : Board.Agrees s.app.log s.board := by
  refine h.inv (I := fun s => Board.Agrees s.app.log s.board) (fun s hs => ?_) fun s s' hr ha hm =>
    hm.agrees hr.pipeline hr.screens hr.provenance ha
  rw [State.board, hs.launch]
  constructor <;> simp [App.launch, Board.ofLog]

end BlindBoard
