import BlindBoard.Impl.System

/-!
# The steps, one by one

`Acts` lists the steps of the system with what lets each be taken: what the user
can reach, which call is in flight, which identifier is fresh. It is `act`
(`act_iff`), so an argument about all steps takes `act` apart here only.
-/

namespace BlindBoard

theorem App.find_mem {a : App} {t : Nat} {p : InFlight} (h : a.find t = some p) : p ∈ a.net ∧ p.ticket = t :=
  ⟨List.mem_of_find?_eq_some h, by simpa using List.find?_some h⟩

/-- The steps from `s`, each with what lets it be taken. -/
inductive Acts (s : State) : Action → State → Prop
  | viewDidLoad : Acts s .viewDidLoad { s with app := s.app.viewDidLoad }
  | viewWillAppear : Acts s .viewWillAppear { s with app := s.app.viewWillAppear }
  | updateData : Acts s .updateData { s with app := s.app.updateData }
  | writing (hp : s.app.pushed = none) (hm : s.app.modal = none) :
      Acts s .writing { s with app := s.app.writing }
  | saveBoard {sheet : Nat} (title content : Option String) (uid : UUID) (url : Bool)
      (hm : s.app.modal = some (.addWord sheet)) (hf : uid.uuidString ∉ s.used) :
      Acts s (.saveBoard title content uid url) { s with
        used := uid.uuidString :: s.used, app := s.app.saveBoard sheet title content uid url }
  | swipeDown {modal : Modal} (hm : s.app.modal = some modal) (h : ∀ screen, modal ≠ .deleteAlert screen) :
      Acts s .swipeDown { s with app := { s.app with modal := none } }
  | boardRow {row : Nat} (hr : row < s.app.rows.length) :
      Acts s (.boardRow row) { s with app := s.app.cellForRowAt row }
  | didSelectRow {row : Nat} {shown : Word} (hp : s.app.pushed = none) (hm : s.app.modal = none)
      (hr : s.app.rows[row]? = some shown) :
        Acts s (.didSelectRow row) { s with app := s.app.didSelectRow row shown }
  | back {screen : Nat} (hp : s.app.pushed = some screen) (hm : s.app.modal = none) :
      Acts s .back { s with app := { s.app with pushed := none } }
  | deleteWord {screen : Nat} (hp : s.app.pushed = some screen) (hm : s.app.modal = none) :
      Acts s .deleteWord { s with app := s.app.deleteWord screen }
  | cancelDelete {screen : Nat} (hm : s.app.modal = some (.deleteAlert screen)) :
      Acts s .cancelDelete { s with app := { s.app with modal := none } }
  | confirmDelete {screen : Nat} (hm : s.app.modal = some (.deleteAlert screen)) :
      Acts s .confirmDelete { s with app := s.app.deleteConfirmed screen }
  | addComment {screen : Nat} (hp : s.app.pushed = some screen) (hm : s.app.modal = none) :
      Acts s .addComment { s with app := s.app.addComment screen }
  | saveComment {sheet screen : Nat} {board : Word} (text : Option String) (now autoID : String)
      (hm : s.app.modal = some (.addComment sheet screen board)) (hf : autoID ∉ s.used) :
      Acts s (.saveComment text now autoID) { s with
        used := autoID :: s.used, app := s.app.saveComment screen board text now autoID }
  | commentRow {screen row : Nat} {d : Detail} (select : Bool) (hd : s.app.details screen = some d)
      (hr : row < d.rows) : Acts s (.commentRow screen row select)
        { s with app := s.app.commentRow screen row select }
  | reloadTable {screen : Nat} (hd : (s.app.details screen).isSome = true) :
      Acts s (.reloadTable screen) { s with app := s.app.reloadTable screen }
  | mainQueue {screen : Nat} {rest : List Nat} (hq : s.app.mainQueue = screen :: rest) :
      Acts s .mainQueue { s with app := { s.app.reloadTable screen with mainQueue := rest } }
  | serve {p : InFlight} {r : Request} (outcome : Outcome) (hf : s.app.find p.ticket = some p)
      (ha : p.answer = none) (hr : p.call.request s.app.uid = some r) :
      Acts s (.serve p.ticket outcome) (s.serve p r outcome)
  | searched {p : InFlight} {word : Word} (web : Web) (fileName : UUID) (hf : s.app.find p.ticket = some p)
      (hc : p.call = .dataTask word) (hu : fileName.uuidString ∉ s.used) :
      Acts s (.searched p.ticket web fileName) { s with
        used := fileName.uuidString :: s.used
        app := (s.app.take p.ticket).imagesFetched word web fileName }
  | answer {p : InFlight} {answer : Answer} (now : String) (hf : s.app.find p.ticket = some p)
      (ha : p.answer = some answer) :
      Acts s (.answer p.ticket now)
        { s with app := (s.app.take p.ticket).answered p.ticket p.call answer now }

theorem act_of_step {s s' : State} {a : Action} (h : step s a = some s') : act s a = some s' :=
  (Option.ite_none_left_eq_some.mp h).2

theorem act_iff {s s' : State} {a : Action} : act s a = some s' ↔ Acts s a s' := by
  constructor
  · intro h
    cases a with
    | viewDidLoad => cases h; exact .viewDidLoad
    | viewWillAppear => cases h; exact .viewWillAppear
    | updateData => cases h; exact .updateData
    | writing =>
      simp only [act, Option.ite_none_right_eq_some, Option.some.injEq] at h
      obtain ⟨⟨hp, hm⟩, rfl⟩ := h
      exact .writing hp hm
    | saveBoard title content uid url =>
      simp only [act] at h
      split at h
      next sheet hm =>
        simp only [Option.ite_none_left_eq_some, Option.some.injEq] at h
        obtain ⟨hf, rfl⟩ := h
        exact .saveBoard title content uid url hm hf
      · cases h
    | swipeDown =>
      simp only [act] at h
      split at h <;> cases h
      next sheet hm => exact .swipeDown hm (by simp)
      next sheet screen board hm => exact .swipeDown hm (by simp)
    | boardRow row =>
      simp only [act, Option.ite_none_right_eq_some, Option.some.injEq] at h
      obtain ⟨hr, rfl⟩ := h
      exact .boardRow hr
    | didSelectRow row =>
      simp only [act, Option.ite_none_right_eq_some, Option.map_eq_some_iff] at h
      obtain ⟨⟨hp, hm⟩, shown, hr, rfl⟩ := h
      exact .didSelectRow hp hm hr
    | back =>
      simp only [act, Option.ite_none_right_eq_some, Option.some.injEq] at h
      obtain ⟨⟨hp, hm⟩, rfl⟩ := h
      obtain ⟨screen, hp⟩ := Option.isSome_iff_exists.mp hp
      exact .back hp hm
    | deleteWord =>
      simp only [act] at h
      split at h <;> cases h
      next screen hp hm => exact .deleteWord hp hm
    | cancelDelete =>
      simp only [act] at h
      split at h <;> cases h
      next screen hm => exact .cancelDelete hm
    | confirmDelete =>
      simp only [act] at h
      split at h <;> cases h
      next screen hm => exact .confirmDelete hm
    | addComment =>
      simp only [act] at h
      split at h <;> cases h
      next screen hp hm => exact .addComment hp hm
    | saveComment text now autoID =>
      simp only [act] at h
      split at h
      next sheet screen board hm =>
        simp only [Option.ite_none_left_eq_some, Option.some.injEq] at h
        obtain ⟨hf, rfl⟩ := h
        exact .saveComment text now autoID hm hf
      · cases h
    | commentRow screen row select =>
      simp only [act] at h
      split at h
      next d hd =>
        simp only [Option.ite_none_right_eq_some, Option.some.injEq] at h
        obtain ⟨hr, rfl⟩ := h
        exact .commentRow select hd hr
      · cases h
    | reloadTable screen =>
      simp only [act, Option.ite_none_right_eq_some, Option.some.injEq] at h
      obtain ⟨hd, rfl⟩ := h
      exact .reloadTable hd
    | mainQueue =>
      simp only [act] at h
      split at h <;> cases h
      next screen rest hq => exact .mainQueue hq
    | serve ticket outcome =>
      simp only [act] at h
      split at h
      next p hf =>
        split at h <;> cases h
        next r ha hr =>
          obtain ⟨-, rfl⟩ := App.find_mem hf
          exact .serve outcome hf ha hr
      · cases h
    | searched ticket web fileName =>
      simp only [act] at h
      split at h
      next t word answer hf =>
        simp only [Option.ite_none_left_eq_some, Option.some.injEq] at h
        obtain ⟨hu, rfl⟩ := h
        obtain ⟨-, rfl⟩ := App.find_mem hf
        exact .searched web fileName hf rfl hu
      · cases h
    | answer ticket now =>
      simp only [act] at h
      split at h
      next t call answer hf =>
        cases h
        obtain ⟨-, rfl⟩ := App.find_mem hf
        exact .answer now hf rfl
      · cases h
  · intro h
    cases h with
    | swipeDown hm h =>
      rename_i modal
      cases modal <;> simp [act, hm] at h ⊢
    | serve outcome hf ha hr => simp [act, hf, ha, hr]
    | @searched p word web fileName hf hc hu =>
      obtain ⟨t, call, answer⟩ := p
      cases hc
      simp [act, hf, hu]
    | @answer p a now hf ha =>
      obtain ⟨t, call, answer⟩ := p
      cases ha
      simp [act, hf]
    | _ => simp_all [act]

end BlindBoard
