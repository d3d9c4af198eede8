import BlindBoard.Proof.Devices

/-!
# Images of a board that launches share

Launches with one identifier upload to one Storage folder. An image's name is
chosen for one add, in one launch, and no other launch has it; so the URL that
a launch looks up under a name is the one that its own upload got, and each
word that is written has the URL and the name of its own upload
(`World.Images`).
-/

namespace BlindBoard

open Lib Spec

namespace World

section Noted

variable {L : Type} {w : World L}

/-- A launch of `u` has recorded the event. -/
def Noted (w : World L) (u : Option UUID) (e : Event) : Prop := ∃ l, w.uid l = u ∧ e ∈ (w.apps l).log

variable [DecidableEq L] {l₀ : L} {s' : State}

theorem apps_put (w : World L) (l : L) (s : State) : (w.put l s).apps l = s.app :=
  congrArg State.app (view_put w l s)

/-- What holds of every launch's app, after a move of one of them. -/
theorem forall_apps {P : App → Prop} (h : ∀ l, P (w.apps l)) (hs : P s'.app) (l : L) :
    P ((w.put l₀ s').apps l) := by
  by_cases hl : l = l₀
  · rw [hl, apps_put]
    exact hs
  · rw [apps_put_ne w s' hl]
    exact h l

theorem log_put_mono (hm : Move (w.view l₀) s') {l : L} {e : Event} (he : e ∈ (w.apps l).log) :
    e ∈ ((w.put l₀ s').apps l).log := by
  by_cases hl : l = l₀
  · obtain ⟨events, hlog⟩ := hm.log
    subst hl
    rw [apps_put, hlog]
    exact List.mem_append_left _ he
  · rwa [apps_put_ne w s' hl]

theorem Noted.mono {u : Option UUID} {e : Event} (h : w.Noted u e) (hm : Move (w.view l₀) s') :
    (w.put l₀ s').Noted u e := by
  obtain ⟨l, hl, he⟩ := h
  exact ⟨l, (uid_put hm.uid l).trans hl, log_put_mono hm he⟩

theorem noted_put {u : Option UUID} {e : Event} (hm : Move (w.view l₀) s') (h : (w.put l₀ s').Noted u e) :
    w.Noted u e ∨ w.uid l₀ = u ∧ e ∈ s'.app.log := by
  obtain ⟨l, hl, he⟩ := h
  rw [uid_put hm.uid] at hl
  rcases log_put he with hold | ⟨h₀, hnew⟩
  · exact .inl ⟨l, hl, hold⟩
  · exact .inr ⟨h₀ ▸ hl, hnew⟩

end Noted

end World

/-! ## Images -/

/-- An add has the texts of a Save tap. -/
theorem Spec.Board.mem_saved {log : List Event} {e : Entry} (he : e ∈ Board.ofLog log) :
    ∃ w, .saved e.sheet w ∈ log ∧ w.title = e.title ∧ w.content = e.content ∧ w.uid = e.uid := by
  induction log using List.reverseRecOn generalizing e with
  | nil => cases he
  | append_singleton log event ih =>
    have old {e₀ : Entry} (he₀ : e₀ ∈ Board.ofLog log) (hs : e₀.sheet = e.sheet) (ht : e₀.title = e.title)
        (hc : e₀.content = e.content) (hu : e₀.uid = e.uid) :
        ∃ w, .saved e.sheet w ∈ log ++ [event] ∧ w.title = e.title ∧ w.content = e.content ∧
          w.uid = e.uid := by
      obtain ⟨w, hw, h₁, h₂, h₃⟩ := ih he₀
      exact ⟨w, List.mem_append_left _ (hs ▸ hw), h₁.trans ht, h₂.trans hc, h₃.trans hu⟩
    have update {uid : String} {g : Entry → Entry} (he : e ∈ (Board.ofLog log).update uid g)
        (hg : ∀ e₀, (g e₀).sheet = e₀.sheet ∧ (g e₀).title = e₀.title ∧
          (g e₀).content = e₀.content ∧ (g e₀).uid = e₀.uid) :
        ∃ w, .saved e.sheet w ∈ log ++ [event] ∧ w.title = e.title ∧ w.content = e.content ∧
          w.uid = e.uid := by
      rcases Board.mem_update_cases he with ⟨he, -⟩ | ⟨e₀, he₀, -, rfl⟩
      · exact old he rfl rfl rfl rfl
      · obtain ⟨h₁, h₂, h₃, h₄⟩ := hg e₀
        exact old he₀ h₁.symm h₂.symm h₃.symm h₄.symm
    rw [Board.ofLog_append] at he
    unfold Board.step at he
    split at he
    · rcases List.mem_append.mp he with he | he
      · exact old he rfl rfl rfl rfl
      · cases List.mem_singleton.mp he
        exact ⟨_, List.mem_append_right _ (List.mem_singleton_self _), rfl, rfl, rfl⟩
    · exact update he fun _ => ⟨rfl, rfl, rfl, rfl⟩
    · exact update he fun _ => ⟨rfl, rfl, rfl, rfl⟩
    · exact update he fun _ => ⟨rfl, rfl, rfl, rfl⟩
    · exact update he fun _ => ⟨rfl, rfl, rfl, rfl⟩
    · obtain ⟨e₀, he₀, rfl⟩ := List.mem_map.mp he
      refine old he₀ ?_ ?_ ?_ ?_ <;> (split <;> rfl)
    · exact old he rfl rfl rfl rfl

/-- The words that a launch has saved have no image yet. -/
def NotesSaves (a : App) : Prop := ∀ sheet w, .saved sheet w ∈ a.log → w.imageUrl = "" ∧ w.imageFileName = ""

theorem NotesSaves.move {s s' : State} (h : NotesSaves s.app) (hm : Move s s') : NotesSaves s'.app := by
  intro sheet w hw
  have old {event : Event} (hw : .saved sheet w ∈ s.app.log ++ [event]) (hne : Event.saved sheet w ≠ event) :
      w.imageUrl = "" ∧ w.imageFileName = "" :=
    h sheet w ((List.mem_append.mp hw).resolve_right fun he => hne (List.mem_singleton.mp he))
  cases hm with
  | saved sheet₀ title content uid url hf =>
    have hw : .saved sheet w ∈ s.app.log ++ [.saved sheet₀ ⟨title, content, uid.uuidString, "", ""⟩] := by
      cases url
      · exact hw
      · exact (List.mem_append.mp hw).resolve_right fun he => by cases List.mem_singleton.mp he
    rcases List.mem_append.mp hw with hw | hw
    · exact h sheet w hw
    · cases List.mem_singleton.mp hw
      exact ⟨rfl, rfl⟩
  | fresh | number | screens | rows | dropped => exact h sheet w hw
  | _ => exact old hw (by simp)

/-- An image's name was an add's before, or is a new one. -/
theorem Move.board_fileName {s s' : State} (hm : Move s s') {e : Entry} {f : String} (he : e ∈ s'.board)
    (hf : e.fileName = some f) : (∃ e₀ ∈ s.board, e₀.fileName = some f) ∨ f ∉ s.used := by
  cases hm.board with
  | same hb => exact .inl ⟨e, hb ▸ he, hf⟩
  | saved sheet title content uid hu hb =>
    rw [hb] at he
    rcases List.mem_append.mp he with he | he
    · exact .inl ⟨e, he, hf⟩
    · rw [List.mem_singleton.mp he] at hf
      cases hf
  | named hp hc fileName hu hb =>
    rw [hb] at he
    rcases Board.mem_update_cases he with ⟨he, -⟩ | ⟨e₀, he₀, -, rfl⟩
    · exact .inl ⟨e, he, hf⟩
    · cases hf
      exact .inr hu
  | @served p r hp ha hr outcome hs =>
    rw [hs, State.board_serve] at he
    have update {uid : String} {g : Entry → Entry} (he : e ∈ s.board.update uid g)
      (hg : ∀ e, (g e).fileName = e.fileName) :
        ∃ e₀ ∈ s.board, e₀.fileName = some f := by
      rcases Board.mem_update_cases he with ⟨he, -⟩ | ⟨e₀, he₀, -, rfl⟩
      · exact ⟨e, he, hf⟩
      · exact ⟨e₀, he₀, (hg e₀).symm.trans hf⟩
    unfold Board.step at he
    split at he
    · exact .inl (by cases ‹Event.served .. = _›)
    · exact .inl (by cases ‹Event.served .. = _›)
    · exact .inl (update he fun _ => rfl)
    · exact .inl (update he fun _ => rfl)
    · exact .inl (update he fun _ => rfl)
    · obtain ⟨e₀, he₀, rfl⟩ := List.mem_map.mp he
      refine .inl ⟨e₀, he₀, Eq.trans ?_ hf⟩
      split <;> rfl
    · exact .inl ⟨e, he, hf⟩

/-- An object was there before a request, or is the one that the request uploads. -/
theorem serve_object {cloud : Cloud} {r : Request} {o : Outcome} {p : Path} {object : Object}
    (h : (cloud.serve r o).1.objects.lookup p = some object) : cloud.objects.lookup p = some object ∨
      ∃ data url, r = .putData p data ∧ o = .success url ∧ object = ⟨data, url⟩ := by
  by_cases hr : r.object = some p
  · cases o with
    | failure => exact .inl (by cases r <;> exact h)
    | success url =>
      cases r with
      | putData q data =>
        cases hr
        rw [Cloud.serve, AList.lookup_insert] at h
        cases h
        exact .inr ⟨data, url, rfl, rfl, rfl⟩
      | deleteObject q =>
        obtain rfl : q = p := Option.some.inj hr
        cases hq : cloud.objects.lookup q with
        | none => simp [Cloud.serve, hq] at h
        | some x => simp [Cloud.serve, hq] at h
      | _ => cases hr
  · exact .inl ((serve_objects cloud o hr).symm.trans h)

/-- A download URL is that of the object at the path. -/
theorem serve_url {cloud : Cloud} {p : Path} {o : Outcome} {u : String}
    (h : (cloud.serve (.downloadURL p) o).2 = .url u) :
    ∃ object, cloud.objects.lookup p = some object ∧ object.url = u := by
  cases o with
  | failure => cases h
  | success url =>
    cases ho : cloud.objects.lookup p with
    | none => simp [Cloud.serve, ho] at h
    | some object => exact ⟨object, rfl, by simpa [Cloud.serve, ho] using h⟩

/-- The image URL that a call of an add has come to, with the word and the image's name. -/
def InFlight.uploaded (p : InFlight) : Option (Word × String × String) :=
  match p.call, p.answer with
  | .setData word _ u f, _ => some (word, f, u)
  | .downloadURL word f, some ⟨.url u, _⟩ => some (word, f, u)
  | _, _ => none

namespace World

variable {L : Type} {w : World L}

/-- Where the images come from: names are those of one add, in one launch, and a URL is
that of the upload under the name. -/
structure Images (w : World L) : Prop where
  saves : ∀ l, NotesSaves (w.apps l)
  uploads : ∀ l t word f data u, .served t (.putData word f data) (.success u) ∈ (w.apps l).log →
    ∃ e ∈ (w.view l).board, e.saved = word ∧ e.fileName = some f
  apart : ∀ l l', l ≠ l' → ∀ e ∈ (w.view l).board, ∀ e' ∈ (w.view l').board,
  ∀ f, e.fileName = some f → e'.fileName ≠ some f
  objects : ∀ l f o, IsUUID f → w.cloud.objects.lookup (imageReference (w.uid l) f) = some o →
    ∃ t word data, w.Noted (w.uid l) (.served t (.putData word f data) (.success o.url))
  carried : ∀ l, ∀ p ∈ (w.apps l).net, ∀ word f u, p.uploaded = some (word, f, u) →
    ∃ t data, .served t (.putData word f data) (.success u) ∈ (w.apps l).log
  written : ∀ l t word time u f o, .served t (.setData word time u f) (.success o) ∈ (w.apps l).log →
    ∃ t data, .served t (.putData word f data) (.success u) ∈ (w.apps l).log

variable [DecidableEq L] {l₀ : L} {s' : State}

/-- An image has the URL of its upload. -/
theorem Images.looked_up (h : w.Images) (hV : w.Valid) {t : Nat} {word : Word}
    {f : String} {answer : Option Answer}
    (hp : ⟨t, .downloadURL word f, answer⟩ ∈ (w.apps l₀).net) {o : Object}
    (ho : w.cloud.objects.lookup (imageReference (w.uid l₀) f) = some o) :
    ∃ t data, .served t (.putData word f data) (.success o.url) ∈ (w.apps l₀).log := by
  obtain ⟨e, he, ha, hA⟩ := (hV.pipeline l₀).pending _ hp word rfl
  obtain ⟨t', word', data, l, hl, hput⟩ := h.objects l₀ f o ((hV.pipeline l₀).fileName e he f hA.1).2 ho
  obtain ⟨e', he', hs, hf⟩ := h.uploads l t' word' f data o.url hput
  have hl₀ : l = l₀ := by
    by_contra hne
    exact h.apart l l₀ hne e' he' e he f hf hA.1
  subst hl₀
  have hword : word' = word := by
    rw [← hs, (hV.pipeline l).own e' he' e he f hf hA.1]
    exact ha
  exact ⟨t', data, hword ▸ hput⟩

theorem Images.move (h : w.Images) (hV : w.Valid) (hm : Move (w.view l₀) s') : (w.put l₀ s').Images := by
  have hP := hV.pipeline l₀
  have huid : ∀ l, (w.put l₀ s').uid l = w.uid l := uid_put hm.uid
  have grown {l : L} {word : Word} {f u : String} :
      (∃ t data, .served t (.putData word f data) (.success u) ∈ (w.apps l).log) →
      ∃ t data, .served t (.putData word f data) (.success u) ∈ ((w.put l₀ s').apps l).log := by
    rintro ⟨t, data, ht⟩
    exact ⟨t, data, log_put_mono hm ht⟩
  constructor
  case saves => exact forall_apps h.saves ((h.saves l₀).move hm)
  case uploads =>
    -- an add keeps its name
    have kept {word : Word} {f : String} (he : ∃ e ∈ (w.view l₀).board,
      e.saved = word ∧ e.fileName = some f) :
        ∃ e ∈ s'.board, e.saved = word ∧ e.fileName = some f := by
      obtain ⟨e, he, rfl, hf⟩ := he
      obtain ⟨e', he', hl⟩ := hP.later hm e he
      exact ⟨e', he', by simp [Entry.saved, hl.title, hl.content, hl.uid], hl.fileName f hf⟩
    intro l t word f data u he
    by_cases hl : l = l₀
    · subst hl
      rw [view_put]
      rw [apps_put] at he
      rcases hm.served_log he with he | ⟨r, hp, -, -⟩
      · exact kept (h.uploads l t word f data u he)
      · obtain ⟨e, he, ha, hA⟩ := hP.pending _ hp word rfl
        exact kept ⟨e, he, ha, hA.1⟩
    · rw [apps_put_ne w s' hl] at he
      rw [board_put_ne s' hl]
      exact h.uploads l t word f data u he
  case apart =>
    have main : ∀ l, l ≠ l₀ → ∀ e ∈ s'.board, ∀ e' ∈ (w.view l).board,
      ∀ f, e.fileName = some f → e'.fileName ≠ some f := by
      intro l hl e he e' he' f hf hf'
      rcases hm.board_fileName he hf with ⟨e₀, h₀, hf₀⟩ | hu
      · exact h.apart l₀ l hl.symm e₀ h₀ e' he' f hf₀ hf'
      · exact hu ((hV.pipeline l).fileName e' he' f hf').1
    intro l l' hne e he e' he' f hf
    by_cases hl : l = l₀
    · subst hl
      rw [view_put] at he
      rw [board_put_ne s' hne.symm] at he'
      exact main l' hne.symm e he e' he' f hf
    · rw [board_put_ne s' hl] at he
      by_cases hl' : l' = l₀
      · subst hl'
        rw [view_put] at he'
        exact fun hf' => main l hl e' he' e he f hf' hf
      · rw [board_put_ne s' hl'] at he'
        exact h.apart l l' hne e he e' he' f hf
  case objects =>
    intro l f o hf ho
    rw [huid] at ho ⊢
    have old (ho : w.cloud.objects.lookup (imageReference (w.uid l) f) = some o) :
        ∃ t word data, (w.put l₀ s').Noted (w.uid l) (.served t (.putData word f data) (.success o.url)) := by
      obtain ⟨t, word, data, hn⟩ := h.objects l f o hf ho
      exact ⟨t, word, data, hn.mono hm⟩
    rcases hm.cloud with hc | ⟨⟨t, call, answer⟩, hp, r, outcome, -, hr, rfl⟩
    · exact old (by rw [put, hc] at ho; exact ho)
    rcases serve_object ho with ho | ⟨data, url, rfl, rfl, rfl⟩
    · exact old ho
    cases call with
    | putData word f' data' =>
      obtain ⟨e, he, -, hA⟩ := hP.pending _ hp word rfl
      simp only [Call.request, Option.some.injEq, Request.putData.injEq] at hr
      obtain ⟨hpath, rfl⟩ := hr
      rw [imageReference_uuid _ hf, imageReference_uuid _ (hP.fileName e he f' hA.1).2] at hpath
      simp only [List.cons.injEq, and_true] at hpath
      obtain ⟨hfolder, rfl⟩ : folderName (w.uid l₀) = folderName (w.uid l) ∧ f' = f := hpath
      refine ⟨t, word, data', l₀, (huid l₀).trans (folderName_inj hfolder), ?_⟩
      rw [apps_put]
      exact List.mem_append_right _ (List.mem_singleton_self _)
    | _ => cases hr
  case carried =>
    intro l p hp word f u hu
    by_cases hl : l = l₀
    · subst hl
      refine grown ?_
      rw [apps_put] at hp
      rcases hm.mem_net hp with hp | ⟨⟨t, call, answer⟩, hq, r, outcome, -, hr, rfl, rfl⟩ | ⟨hpe, -, -, hS⟩
      · exact h.carried l p hp word f u hu
      · cases call with
        | setData => exact h.carried l _ hq word f u hu
        | downloadURL word' f' =>
          cases hr
          simp only [InFlight.uploaded] at hu
          split at hu
          next he => cases he
          next he ha =>
            cases he
            cases hu
            simp only [Option.some.injEq, Answer.mk.injEq] at ha
            obtain ⟨object, ho, rfl⟩ := serve_url ha.1
            exact h.looked_up hV hq ho
          · cases hu
        | _ => cases hu
      · -- a call that is sent and carries a URL follows a lookup that was answered
        rw [hpe] at hu
        generalize p.call = call at hu hS
        cases hS with
        | setData hq hc ha now =>
          cases hu
          exact h.carried l _ hq word f u (by rw [InFlight.uploaded, hc, ha])
        | allowed call hA => cases call <;> first | cases hu; done | exact hA.elim
        | _ => cases hu
    · rw [apps_put_ne w s' hl] at hp
      exact grown (h.carried l p hp word f u hu)
  case written =>
    intro l t word time u f o he
    refine grown ?_
    rcases log_put he with hold | ⟨rfl, hnew⟩
    · exact h.written l t word time u f o hold
    · rcases hm.served_log hnew with hold | ⟨r, hp, -, -⟩
      · exact h.written l t word time u f o hold
      · exact h.carried l _ hp word f u rfl

end World

end BlindBoard
