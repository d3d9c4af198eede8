import BlindBoard.Proof.WordList

/-!
# The comment table

`fetchComment` assigns `arr` at once and leaves `reloadData` to a later turn of
the main queue, so between the two the table asks for the rows of its old count
in the new array. A callback then traps if the new answer is shorter, and a late
answer to an early query is (`staleActions`). `comment_rows`: no row callback can trap
in a run exactly when every answer that reaches a living screen covers the rows of
its table.
-/

namespace BlindBoard

open Lib

/-- A step of the app, or an answer to a `fetchComment` with any documents. -/
inductive TableAction where
  | app (action : Action)
  | fetched (screen ticket servedAt : Nat) (documents : List (Path × Dictionary))

def tableStep (s : State) : TableAction → Option State
  | .app action => step s action
  | .fetched screen ticket servedAt documents =>
    if s.app.crashed then none
    else some { s with app := s.app.commentsReloaded screen ticket servedAt documents }

/-- No row callback that the table can make now traps. -/
def Detail.InRange (d : Detail) : Prop :=
  ∀ row < d.rows, (d.cellForRowAt row).isSome = true ∧ (d.didSelectRowAt row).isSome = true

def App.RowsInRange (a : App) : Prop := ∀ screen d, a.details screen = some d → d.InRange

/-- An answer for a screen that is alive covers the rows of its table. -/
def App.Covers (a : App) (screen : Nat) (documents : List (Path × Dictionary)) : Prop :=
  a.alive screen = true → ∀ d, a.details screen = some d → d.rows ≤ documents.length

/-- If the step answers a `fetchComment`, its answer covers the rows. -/
def AnswerCovers (s : State) : TableAction → Prop
  | .fetched screen _ _ documents => s.app.Covers screen documents
  | .app (.answer ticket _) => ∀ screen uid documents k,
    s.app.find ticket = some ⟨ticket, .reloadComment screen uid, some ⟨.documents documents, k⟩⟩ →
      (s.app.take ticket).Covers screen documents
  | .app _ => True

/-! ## What steps do to the tables -/

theorem Detail.inRange_iff {d : Detail} : d.InRange ↔ d.rows ≤ d.arr.length := by
  simp only [InRange, cellForRowAt, didSelectRowAt, Option.isSome_map, and_self, isSome_getElem?]
  constructor
  · intro h
    by_contra hlt
    exact lt_irrefl _ (h d.arr.length (not_le.mp hlt))
  · exact fun h row hr => hr.trans_le h

theorem Detail.inRange_reloadData (d : Detail) : d.reloadData.InRange := inRange_iff.mpr le_rfl

namespace App

variable {a : App}

@[simp] theorem showLoader_details (v : View) (b : Bool) : (a.showLoader v b).details = a.details := by
  obtain ⟨hud, h⟩ := a.showLoader_hud v b
  rw [h]

@[simp] theorem addContent_details (w : Word) (url : Bool) : (a.addContent w url).details = a.details := by
  cases url <;> rfl

theorem saveBoard_details (sheet : Nat) (title content : Option String) (uid : UUID) (url : Bool) :
    (a.saveBoard sheet title content uid url).details = a.details := by
  unfold saveBoard
  split
  · rfl
  · simp [record]

theorem imagesFetched_details (w : Word) (web : Web) (fileName : UUID) :
    (a.imagesFetched w web fileName).details = a.details := by
  unfold imagesFetched imageUpload
  repeat' split
  all_goals rfl

theorem deleteConfirmed_details (screen : Nat) : (a.deleteConfirmed screen).details = a.details := by
  unfold deleteConfirmed
  split
  · simp [issue, record]
  · rfl

theorem fetchComment_details (screen : Nat) : (a.fetchComment screen).details = a.details := by
  unfold fetchComment
  split <;> rfl

theorem addComment_details (screen : Nat) : (a.addComment screen).details = a.details := by
  unfold addComment
  split <;> rfl

theorem cellForRowAt_details (row : Nat) : (a.cellForRowAt row).details = a.details := by
  unfold cellForRowAt
  split <;> rfl

theorem commentRow_details (screen row : Nat) (select : Bool) :
    (a.commentRow screen row select).details = a.details := by
  unfold commentRow
  repeat' split
  all_goals rfl

/-- Only the answer to a `fetchComment` changes a screen. -/
theorem answered_details (ticket : Nat) (call : Call) (answer : Answer) (now : String)
    (h : ∀ screen uid documents k, call = .reloadComment screen uid → answer ≠ ⟨.documents documents, k⟩) :
    (a.answered ticket call answer now).details = a.details := by
  unfold answered
  split
  · rfl
  · simp [addCompleted, issue, record, dismiss, fetchBoard]
  · rfl
  · rw [objectDeleted_eq]
  next screen uid documents hr => exact absurd (congrArg₂ Answer.mk hr rfl) (h screen uid documents _ rfl)
  · exact fetchComment_details _
  · rfl

end App

/-- Apart from answers, a step opens a screen, reloads a table or changes no screen. -/
theorem act_details {s s' : State} {action : Action} (h : act s action = some s') :
    (∃ ticket now, action = .answer ticket now) ∨ s'.app.details = s.app.details ∨
      (∃ w, s'.app.details = Function.update s.app.details s.app.next (some ⟨w, [], 0⟩)) ∨
      ∃ screen, s'.app.details = Function.update s.app.details screen
        ((s.app.details screen).map Detail.reloadData) := by
  cases act_iff.mp h with
  | answer now => exact .inl ⟨_, now, rfl⟩
  | didSelectRow =>
    unfold App.didSelectRow
    split
    next w ha => exact .inr (.inr (.inl ⟨w, rfl⟩))
    · exact .inr (.inl rfl)
  | reloadTable => exact .inr (.inr (.inr ⟨_, rfl⟩))
  | mainQueue => exact .inr (.inr (.inr ⟨_, rfl⟩))
  | saveBoard => exact .inr (.inl (App.saveBoard_details ..))
  | confirmDelete => exact .inr (.inl (App.deleteConfirmed_details _))
  | addComment => exact .inr (.inl (App.addComment_details _))
  | boardRow => exact .inr (.inl (App.cellForRowAt_details ..))
  | commentRow => exact .inr (.inl (App.commentRow_details ..))
  | searched => exact .inr (.inl (App.imagesFetched_details ..))
  | _ => exact .inr (.inl rfl)

/-! ## When the rows are in range -/

section InRange

variable {a a' : App} {screen : Nat} {d : Detail} {documents : List (Path × Dictionary)}

/-- One screen changes: what counts is whether its rows are in range. -/
theorem App.RowsInRange.update_iff (h : a.RowsInRange)
    (hd : a'.details = Function.update a.details screen (some d)) :
    a'.RowsInRange ↔ d.InRange := by
  constructor
  · intro h'
    exact h' screen d (by rw [hd, Function.update_self])
  · intro hr n d' hd'
    rw [hd] at hd'
    by_cases hn : n = screen
    · rw [hn, Function.update_self] at hd'
      cases hd'
      exact hr
    · rw [Function.update_of_ne hn] at hd'
      exact h n d' hd'

theorem App.RowsInRange.reloadData (h : a.RowsInRange)
    (hd : a'.details = Function.update a.details screen ((a.details screen).map Detail.reloadData)) :
    a'.RowsInRange := by
  cases hs : a.details screen with
  | none =>
    rw [hs, Option.map_none, ← hs, Function.update_eq_self] at hd
    intro n d
    rw [hd]
    exact h n d
  | some d =>
    rw [hs, Option.map_some] at hd
    exact (h.update_iff hd).mpr d.inRange_reloadData

/-- The rows stay in range if and only if the answer covers them. -/
theorem App.RowsInRange.commentsReloaded_iff (h : a.RowsInRange) (ticket servedAt : Nat) :
    (a.commentsReloaded screen ticket servedAt documents).RowsInRange ↔ a.Covers screen documents := by
  unfold App.commentsReloaded
  split
  next d hd =>
    split
    next hl =>
      rw [h.update_iff (d := { d with arr := documents.map fun d => Comment.ofDictionary d.2 }) rfl,
        Detail.inRange_iff, List.length_map]
      constructor
      · rintro hle - d' hd'
        cases hd.symm.trans hd'
        exact hle
      · exact fun hc => hc hl d hd
    next hl => exact ⟨fun _ hl' => absurd hl' hl, fun _ => h⟩
  next hd => exact iff_of_true h fun _ d hd' => by simp [hd] at hd'

end InRange

/-- The same, for a call that is answered in its turn. -/
theorem answered_iff {s : State} {p : InFlight} {answer : Answer} (h : s.app.RowsInRange)
    (hf : s.app.find p.ticket = some p) (ha : p.answer = some answer) (now : String) :
    ((s.app.take p.ticket).answered p.ticket p.call answer now).RowsInRange ↔
      AnswerCovers s (.app (.answer p.ticket now)) := by
  obtain ⟨t, call, answer'⟩ := p
  cases ha
  by_cases hc : ∃ screen uid documents k, call = .reloadComment screen uid ∧
    answer = ⟨.documents documents, k⟩
  · obtain ⟨screen, uid, documents, k, rfl, rfl⟩ := hc
    rw [AnswerCovers]
    refine (App.RowsInRange.commentsReloaded_iff (a := s.app.take t) h t k).trans (Iff.intro ?_ ?_)
    · rintro hcov _ _ _ _ hf'
      cases hf.symm.trans hf'
      exact hcov
    · exact fun hcov => hcov screen uid documents k hf
  · have hd : ((s.app.take t).answered t call answer now).details = s.app.details := by
      refine App.answered_details _ _ _ _ ?_
      rintro screen uid documents k rfl rfl
      exact hc ⟨_, _, _, _, rfl, rfl⟩
    refine iff_of_true (fun n d hn => h n d (hd ▸ hn)) fun screen uid documents k hf' => ?_
    cases hf.symm.trans hf'
    exact absurd ⟨_, _, _, _, rfl, rfl⟩ hc

/-- From a state in which the rows are in range, a step keeps them so if and only
if an answer it gives covers them. -/
theorem tableStep_iff {s s' : State} {action : TableAction} (h : s.app.RowsInRange)
    (hs : tableStep s action = some s') :
    s'.app.RowsInRange ↔ AnswerCovers s action := by
  cases action with
  | fetched screen ticket servedAt documents =>
    simp only [tableStep, Option.ite_none_left_eq_some, Option.some.injEq] at hs
    obtain ⟨-, rfl⟩ := hs
    exact h.commentsReloaded_iff ticket servedAt
  | app action =>
    have hs : act s action = some s' := act_of_step hs
    by_cases ha : ∃ ticket now, action = .answer ticket now
    · obtain ⟨ticket, now, rfl⟩ := ha
      cases act_iff.mp hs with
      | answer _ hf hn => exact answered_iff h hf hn now
    · have hcov : AnswerCovers s (.app action) := by
        cases action with
        | answer ticket now => exact absurd ⟨_, _, rfl⟩ ha
        | _ => trivial
      refine iff_of_true ?_ hcov
      rcases act_details hs with hc | hd | ⟨w, hd⟩ | ⟨screen, hd⟩
      · exact absurd hc ha
      · exact fun n d hn => h n d (hd ▸ hn)
      · exact (h.update_iff hd).mpr (by simp [Detail.inRange_iff])
      · exact h.reloadData hd

/-- In every run from a launch, no row callback that a table can make traps at any
moment, if and only if each answer to a `fetchComment` that reaches a living screen
has at least as many comments as the rows its table obtained when it last reloaded. -/
theorem comment_rows {s s' : State} {as : List TableAction} (h : Start s)
    (hr : run tableStep s as = some s') :
    (∀ bs s₁, bs <+: as → run tableStep s bs = some s₁ → s₁.app.RowsInRange) ↔
    Runs tableStep AnswerCovers s as s' := by
  refine runs_iff_inv (fun _ _ _ => tableStep_iff) ?_ hr
  intro screen d hd
  rw [h.launch] at hd
  cases hd

/-! ## A row that is gone -/

/-- A word is opened (its comments are served: none), a comment is saved, and the
second `fetchComment` is answered before the first. -/
def staleActions : List Action :=
  oneWord ++ [.didSelectRow 0, .reloadTable 6, .serve 7 (.success ""), .addComment,
    .saveComment (some "meow") "2022-10-01T10:00:00Z" "c1", .serve 9 (.success ""), .answer 9 "",
    .serve 10 (.success ""), .answer 10 "", .mainQueue, .answer 7 ""]

/-- The table has one row, and `arr` is empty. -/
theorem stale_end : ∃ s, Runs tableStep anyStep (State.empty (some phone)) (staleActions.map .app) s ∧
    s.app.details 6 = some ⟨cat, [], 1⟩ :=
  exists_runs (by decide +kernel)

theorem staleActions_run : (run tableStep (State.empty (some phone)) (staleActions.map .app)).isSome = true :=
  isSome_of_exists_runs stale_end

def stale : State := (run tableStep (State.empty (some phone)) (staleActions.map .app)).get staleActions_run

theorem stale_reach : run tableStep (State.empty (some phone)) (staleActions.map .app) = some stale :=
  (Option.some_get staleActions_run).symm

theorem stale_detail : stale.app.details 6 = some ⟨cat, [], 1⟩ := by
  rw [stale]
  exact (get_of_exists_runs stale_end staleActions_run).2

theorem comment_row_traps : ¬ ∀ s s' as, Start s → run tableStep s as = some s' → s'.app.RowsInRange := by
  intro h
  have hd := h _ _ _ (start_empty _) stale_reach 6 _ stale_detail
  exact absurd (Detail.inRange_iff.mp hd) (by decide)

theorem comment_rows_stale :
    (∀ bs s₁, bs <+: staleActions.map .app → run tableStep (State.empty (some phone)) bs = some s₁ →
      s₁.app.RowsInRange) ↔
    Runs tableStep AnswerCovers (State.empty (some phone)) (staleActions.map .app) stale :=
  comment_rows (start_empty _) stale_reach

end BlindBoard
