import BlindBoard.Impl.World
import BlindBoard.Proof.WordList

/-!
# Whose board it is

A launch reads and writes below its own collection and Storage folder only, so
launches with another identifier neither see nor change what it lists, and
their operations can be erased from a run (`board_of_identifier`). Launches
with the same identifier share one board, from launch to launch; those without an
identifier share one too, on whichever devices they run (`boards_shared`).
-/

namespace BlindBoard

open Lib Spec

/-! ## The part of the cloud that an identifier names -/

/-- What is below the collection and the Storage folder of `uid`. -/
def Cloud.slice (uid : Option UUID) (cloud : Cloud) : Cloud where
  documents := cloud.documents.restrict fun p => (COLLECTION_BOARD uid).isPrefixOf p
  objects := cloud.objects.restrict fun p => (imageReference uid "").isPrefixOf p

/-- A request is served from the part it is within. -/
theorem serve_slice {uid : Option UUID} {r : Request} (h : r.Within uid) (cloud : Cloud) (o : Outcome) :
    ((cloud.slice uid).serve r o).1 = (cloud.serve r o).1.slice uid ∧
      ((cloud.slice uid).serve r o).2 = (cloud.serve r o).2 := by
  cases o with
  | failure => cases r <;> exact ⟨rfl, rfl⟩
  | success url =>
    cases r with
    | setData p d =>
      refine ⟨?_, rfl⟩
      simp only [Cloud.serve, Cloud.slice]
      rw [Store.restrict_insert (List.isPrefixOf_iff_prefix.mpr h)]
    | deleteDocument p =>
      refine ⟨?_, rfl⟩
      simp only [Cloud.serve, Cloud.slice, Store.restrict_erase]
    | getDocuments c field descending =>
      refine ⟨rfl, ?_⟩
      simp only [Cloud.serve, getDocuments, Cloud.slice]
      rw [Store.query_restrict fun p d hp => ?_]
      obtain ⟨id, rfl⟩ := inCollection_iff.mp (Bool.and_eq_true .. ▸ hp).1
      exact List.isPrefixOf_iff_prefix.mpr (h.trans (List.prefix_append _ _))
    | putData p data =>
      refine ⟨?_, rfl⟩
      simp only [Cloud.serve, Cloud.slice]
      rw [Store.restrict_insert (List.isPrefixOf_iff_prefix.mpr h)]
    | downloadURL p =>
      have hl : (cloud.slice uid).objects.lookup p = cloud.objects.lookup p :=
        Store.lookup_restrict (List.isPrefixOf_iff_prefix.mpr h)
      simp only [Cloud.serve, hl]
      split <;> exact ⟨rfl, rfl⟩
    | deleteObject p =>
      have hl : (cloud.slice uid).objects.lookup p = cloud.objects.lookup p :=
        Store.lookup_restrict (List.isPrefixOf_iff_prefix.mpr h)
      simp only [Cloud.serve, hl]
      split
      · refine ⟨?_, rfl⟩
        simp only [Cloud.slice, Store.restrict_erase]
      · exact ⟨rfl, rfl⟩

/-- A request within the part of another identifier changes nothing. -/
theorem serve_slice_ne {uid uid' : Option UUID} {r : Request} (h : r.Within uid')
    (hne : uid ≠ uid') (cloud : Cloud)
    (o : Outcome) : (cloud.serve r o).1.slice uid = cloud.slice uid := by
  have document {p : Path} (h : COLLECTION_BOARD uid' <+: p) :
    (COLLECTION_BOARD uid).isPrefixOf p = false := by
    rw [Bool.eq_false_iff]
    exact fun hp => hne (documents_apart (List.isPrefixOf_iff_prefix.mp hp) h)
  have object {p : Path} (h : imageReference uid' "" <+: p) :
    (imageReference uid "").isPrefixOf p = false := by
    rw [Bool.eq_false_iff]
    exact fun hp => hne (objects_apart (List.isPrefixOf_iff_prefix.mp hp) h)
  cases o with
  | failure => cases r <;> rfl
  | success url =>
    cases r with
    | setData p d => simp only [Cloud.serve, Cloud.slice, Store.restrict_insert_of_not (document h)]
    | deleteDocument p => simp only [Cloud.serve, Cloud.slice, Store.restrict_erase_of_not (document h)]
    | getDocuments => rfl
    | putData p data => simp only [Cloud.serve, Cloud.slice, Store.restrict_insert_of_not (object h)]
    | downloadURL p => simp only [Cloud.serve]; split <;> rfl
    | deleteObject p =>
      simp only [Cloud.serve]
      split
      · simp only [Cloud.slice, Store.restrict_erase_of_not (object h)]
      · rfl

theorem Request.Within.document {uid : Option UUID} {r : Request} (h : r.Within uid) {p : Path}
    (hd : r.document = some p) : COLLECTION_BOARD uid <+: p := by
  cases r <;> cases hd <;> exact h

/-! ## What a step depends on -/

/-- A step depends on the cloud below the launch's own collection and folder only,
and it is taken all the same where fewer identifiers are in use. -/
theorem act_local {s s' : State} {a : Action} (h : act s a = some s') {cloud : Cloud} {used : List String}
    (hc : s.cloud.slice s.app.uid = cloud.slice s.app.uid) (hu : used ⊆ s.used) :
    ∃ t, act ⟨cloud, used, s.app⟩ a = some t ∧ t.app = s'.app ∧
      s'.cloud.slice s.app.uid = t.cloud.slice s.app.uid ∧ t.used ⊆ s'.used := by
  have fresh {u : String} (hf : u ∉ s.used) : u ∉ used := fun h => hf (hu h)
  have cons (u : String) : u :: used ⊆ u :: s.used := List.cons_subset_cons u hu
  have taken {a : Action} {t : State} (h : Acts ⟨cloud, used, s.app⟩ a t) :
    act ⟨cloud, used, s.app⟩ a = some t := act_iff.mpr h
  cases act_iff.mp h with
  | viewDidLoad => exact ⟨_, taken .viewDidLoad, rfl, hc, hu⟩
  | viewWillAppear => exact ⟨_, taken .viewWillAppear, rfl, hc, hu⟩
  | updateData => exact ⟨_, taken .updateData, rfl, hc, hu⟩
  | writing hp hm => exact ⟨_, taken (.writing hp hm), rfl, hc, hu⟩
  | saveBoard title content uid url hm hf =>
    exact ⟨_, taken (.saveBoard title content uid url hm (fresh hf)), rfl, hc, cons _⟩
  | swipeDown hm hn => exact ⟨_, taken (.swipeDown hm hn), rfl, hc, hu⟩
  | boardRow hr => exact ⟨_, taken (.boardRow hr), rfl, hc, hu⟩
  | didSelectRow hp hm hr => exact ⟨_, taken (.didSelectRow hp hm hr), rfl, hc, hu⟩
  | back hp hm => exact ⟨_, taken (.back hp hm), rfl, hc, hu⟩
  | deleteWord hp hm => exact ⟨_, taken (.deleteWord hp hm), rfl, hc, hu⟩
  | cancelDelete hm => exact ⟨_, taken (.cancelDelete hm), rfl, hc, hu⟩
  | confirmDelete hm => exact ⟨_, taken (.confirmDelete hm), rfl, hc, hu⟩
  | addComment hp hm => exact ⟨_, taken (.addComment hp hm), rfl, hc, hu⟩
  | saveComment text now autoID hm hf =>
    exact ⟨_, taken (.saveComment text now autoID hm (fresh hf)), rfl, hc, cons _⟩
  | commentRow select hd hr => exact ⟨_, taken (.commentRow select hd hr), rfl, hc, hu⟩
  | reloadTable hd => exact ⟨_, taken (.reloadTable hd), rfl, hc, hu⟩
  | mainQueue hq => exact ⟨_, taken (.mainQueue hq), rfl, hc, hu⟩
  | serve outcome hf ha hr =>
    -- the request is within the part in which the two clouds agree
    have hw := Call.request_within hr
    obtain ⟨h₁, h₂⟩ := serve_slice hw s.cloud outcome
    obtain ⟨h₁', h₂'⟩ := serve_slice hw cloud outcome
    rw [hc] at h₁ h₂
    refine ⟨_, taken (.serve outcome hf ha hr), ?_, h₁.symm.trans h₁', hu⟩
    simp only [State.serve, ← h₂', h₂]
  | searched web fileName hf hcall hn =>
    exact ⟨_, taken (.searched web fileName hf hcall (fresh hn)), rfl, hc, cons _⟩
  | answer now hf ha => exact ⟨_, taken (.answer now hf ha), rfl, hc, hu⟩

/-- The moves of a launch change nothing in the part of another identifier. -/
theorem Moves.slice {s s' : State} (h : Moves s s') {uid : Option UUID} (hne : uid ≠ s.app.uid) :
    s'.cloud.slice uid = s.cloud.slice uid := by
  induction h with
  | refl => rfl
  | tail hm h ih =>
    rw [← ih]
    rcases h.cloud with hc | ⟨p, -, r, o, -, hr, rfl⟩
    · rw [hc]
    · rw [Moves.uid hm] at hr
      exact serve_slice_ne (Call.request_within hr) hne _ o

theorem Moves.used {s s' : State} (h : Moves s s') : s.used ⊆ s'.used := by
  induction h with
  | refl => exact List.Subset.refl _
  | tail _ h ih => exact List.Subset.trans ih h.used

theorem Moves.screens {s s' : State} (h : Moves s s') (hS : Screens s) : Screens s' := by
  induction h with
  | refl => exact hS
  | tail _ h ih => exact ih.move h

/-! ## Launches that share an identifier -/

/-- The word of a Save tap. -/
def Event.saves : Event → Option Word
  | .saved _ w => some w
  | _ => none

/-- Only a Save tap adds to the words of a board. -/
theorem Spec.Board.uids_step {b : Board} {e : Event} (h : e.saves = none) :
    (b.step e).map Entry.uid = b.map Entry.uid := by
  unfold step
  split
  next sheet w => cases h
  all_goals first | rfl | exact uids_update fun _ => rfl | skip
  rw [List.map_map]
  refine List.map_congr_left fun e _ => ?_
  simp only [Function.comp_apply]
  split <;> rfl

/-- The words of a launch are those it had, and one with a fresh identifier. -/
theorem Move.board_uid {s s' : State} (hm : Move s s') {e : Entry} (he : e ∈ s'.board) :
    (∃ e₀ ∈ s.board, e₀.uid = e.uid) ∨ e.uid ∉ s.used := by
  cases hm.board with
  | same hb => exact .inl ⟨e, hb ▸ he, rfl⟩
  | saved sheet title content uid hf hb =>
    rw [hb] at he
    rcases List.mem_append.mp he with he | he
    · exact .inl ⟨e, he, rfl⟩
    · rw [List.mem_singleton.mp he]
      exact .inr hf
  | named hp hc fileName hf hb =>
    rw [hb] at he
    rcases Board.mem_update_cases he with ⟨he, -⟩ | ⟨e₀, he₀, -, rfl⟩
    · exact .inl ⟨e, he, rfl⟩
    · exact .inl ⟨e₀, he₀, rfl⟩
  | served hp ha hr outcome hs =>
    rw [hs, State.board_serve] at he
    have hu := List.mem_map_of_mem (f := Entry.uid) he
    rw [Board.uids_step rfl] at hu
    exact .inl (List.mem_map.mp hu)

/-- The adds whose document was written know it. -/
def NotesWrites (s : State) : Prop :=
  ∀ t word time u f o, .served t (.setData word time u f) (.success o) ∈ s.app.log →
  ∃ e ∈ s.board, e.uid = word.uid ∧ e.writtenTime.isSome = true

theorem NotesWrites.move {s s' : State} (h : NotesWrites s) (hP : Pipeline s.used s.board s.app.net)
    (hm : Move s s') :
    NotesWrites s' := by
  intro t word time u f o he
  rcases hm.served_log he with he | ⟨r, hp, -, rfl⟩
  · obtain ⟨e, hb, hu, ht⟩ := h t word time u f o he
    obtain ⟨e', hb', hl⟩ := hP.later hm e hb
    obtain ⟨time', ht⟩ := Option.isSome_iff_exists.mp ht
    exact ⟨e', hb', hl.uid.trans hu, by rw [hl.writtenTime time' ht]; rfl⟩
  · obtain ⟨e, hb, ha, -⟩ := hP.pending _ hp word rfl
    simp only [State.serve, State.board, Board.ofLog_append]
    exact ⟨_, Board.mem_update_of_eq hb ha.uid, ha.uid, rfl⟩

section World

variable {L : Type} {w w' : World L}

/-- The document at `p` has been deleted in a launch of `uid`. -/
def World.Deleted (w : World L) (uid : Option UUID) (p : Path) : Prop :=
  ∃ l t call o, w.uid l = uid ∧ call.request uid = some (.deleteDocument p) ∧
    .served t call (.success o) ∈ (w.apps l).log

/-- What holds in each launch whatever the others do, and across launches: their
words have different identifiers, and a word that was written is on the board of its
launch's identifier until it is deleted. -/
structure World.Valid (w : World L) : Prop where
  screens : ∀ l, Screens (w.view l)
  pipeline : ∀ l, Pipeline w.used (w.view l).board (w.apps l).net
  apart : ∀ l l', l ≠ l' → ∀ e ∈ (w.view l).board, ∀ e' ∈ (w.view l').board, e.uid ≠ e'.uid
  written : ∀ l, NotesWrites (w.view l)
  stored : ∀ l t word time u f o, .served t (.setData word time u f) (.success o) ∈ (w.apps l).log →
    w.cloud.documents.lookup (wordDocument (w.uid l) word.uid) = some (word.document time u f) ∨
      w.Deleted (w.uid l) (wordDocument (w.uid l) word.uid)

theorem World.Start.valid (h : w.Start) : w.Valid := by
  have hlog : ∀ l, (w.apps l).log = [] := fun l => by rw [h l]; rfl
  have hboard : ∀ l, (w.view l).board = [] := fun l => by rw [State.board, World.view, hlog]; rfl
  constructor
  case screens =>
    intro l
    constructor <;> simp only [World.view] <;> rw [h l] <;> simp [App.launch]
  case pipeline =>
    intro l
    rw [hboard, h l]
    exact .empty w.used
  case apart =>
    intro l l' _ e he
    rw [hboard] at he
    cases he
  case written =>
    intro l t word time u f o he
    rw [World.view, hlog] at he
    cases he
  case stored =>
    intro l t word time u f o he
    rw [hlog] at he
    cases he

theorem Screens.congr {s t : State} (h : Screens s) (e : t.app = s.app) : Screens t := by
  constructor <;> rw [e]
  exacts [h.below, h.sheet, h.calls]

variable [DecidableEq L]

namespace World

theorem uid_put {l₀ : L} {s' : State} (h : s'.app.uid = w.uid l₀) (l : L) :
    (w.put l₀ s').uid l = w.uid l := by
  rw [uid, uid]
  by_cases hl : l = l₀
  · subst hl
    simpa [put, uid] using h
  · rw [apps_put_ne w s' hl]

theorem board_put_ne {l l₀ : L} (s' : State) (h : l ≠ l₀) :
    ((w.put l₀ s').view l).board = (w.view l).board := by
  rw [State.board, State.board, view, view, apps_put_ne w s' h]

/-- An event of a launch after a move was in its log, or the move noted it. -/
theorem log_put {l l₀ : L} {s' : State} {e : Event} (he : e ∈ ((w.put l₀ s').apps l).log) :
    e ∈ (w.apps l).log ∨ l = l₀ ∧ e ∈ s'.app.log := by
  by_cases hl : l = l₀
  · subst hl
    exact .inr ⟨rfl, by simpa [put] using he⟩
  · exact .inl (apps_put_ne w s' hl ▸ he)

/-- A deletion is not forgotten. -/
theorem Deleted.mono {uid : Option UUID} {p : Path} (h : w.Deleted uid p) {l₀ : L} {s' : State}
    (hm : Move (w.view l₀) s') : (w.put l₀ s').Deleted uid p := by
  obtain ⟨l, t, call, o, hl, hr, he⟩ := h
  refine ⟨l, t, call, o, (uid_put hm.uid l).trans hl, hr, ?_⟩
  by_cases hl : l = l₀
  · subst hl
    obtain ⟨events, hlog⟩ := hm.log
    have happ : (w.put l s').apps l = s'.app := congrArg State.app (view_put w l s')
    rw [happ, hlog]
    exact List.mem_append_left _ he
  · rwa [apps_put_ne w s' hl]

/-- A word that was written is not written a second time, nor does another word have its path. -/
theorem Valid.written_once (h : w.Valid) {l : L} {t : Nat} {word : Word} {time u f o : String}
    (he : .served t (.setData word time u f) (.success o) ∈ (w.apps l).log)
    {l₀ : L} {p : InFlight} {word' : Word}
    {time' u' f' : String} (hp : p ∈ (w.apps l₀).net) (hc : p.call = .setData word' time' u' f')
    (hn : p.answer = none) :
    IsUUID word'.uid ∧ word'.uid ≠ word.uid := by
  obtain ⟨e, heb, hu, ht⟩ := h.written l t word time u f o he
  obtain ⟨e', heb', ha, hA⟩ := (h.pipeline l₀).pending p hp word' (by rw [hc]; rfl)
  refine ⟨ha.uid ▸ ((h.pipeline l₀).uid e' heb').2, fun hww => ?_⟩
  have hsame : e'.uid = e.uid := by rw [ha.uid, hu, hww]
  have ht' : e'.writtenTime = none := by
    rw [Awaits, hc] at hA
    simpa [InFlight.done, hn] using hA.2.2
  by_cases hl : l₀ = l
  · subst hl
    rw [Board.eq_of_uid (h.pipeline l₀).uids heb' heb hsame] at ht'
    rw [ht'] at ht
    cases ht
  · exact h.apart l₀ l hl e' heb' e heb hsame

/-- A word that was written stays, unless its document is deleted: no other word has its path, its own
is written once, and a comment is further below. -/
theorem Valid.stored_move (h : w.Valid) {l₀ : L} {s' : State} (hm : Move (w.view l₀) s')
    {l : L} {t : Nat} {word : Word}
    {time u f o : String} (he : .served t (.setData word time u f) (.success o) ∈ (w.apps l).log) :
    s'.cloud.documents.lookup (wordDocument (w.uid l) word.uid) = some (word.document time u f) ∨
      (w.put l₀ s').Deleted (w.uid l) (wordDocument (w.uid l) word.uid) := by
  obtain ⟨e, heb, hu, -⟩ := h.written l t word time u f o he
  have hword : IsUUID word.uid := hu ▸ ((h.pipeline l).uid e heb).2
  rcases h.stored l t word time u f o he with hs | hd
  · rcases hm.cloud with hc | ⟨p, hp, r, outcome, ha, hr, rfl⟩
    · rw [hc]
      exact .inl hs
    by_cases hdoc : r.document = some (wordDocument (w.uid l) word.uid)
    · have huid : w.uid l = w.uid l₀ :=
        documents_apart (List.prefix_append ..) (Request.Within.document (Call.request_within hr) hdoc)
      obtain ⟨ticket, call, answer⟩ := p
      cases ha
      cases call with
      | setData word' time' u' f' =>
        obtain ⟨hword', hne⟩ := h.written_once he hp rfl rfl
        cases hr
        have hpath : wordDocument (w.uid l₀) word'.uid = wordDocument (w.uid l) word.uid :=
          Option.some.inj hdoc
        rw [huid, wordDocument_uuid _ hword', wordDocument_uuid _ hword] at hpath
        exact absurd (by simpa using hpath) hne
      | deleteDocument screen x =>
        cases outcome with
        | failure =>
          cases hr
          exact .inl hs
        | success url =>
          cases hr
          have hpath : wordDocument (w.uid l₀) x = wordDocument (w.uid l) word.uid := Option.some.inj hdoc
          refine .inr ⟨l₀, ticket, .deleteDocument screen x, url, (uid_put rfl l₀).trans huid.symm, ?_, ?_⟩
          · rw [← hpath, huid]
            rfl
          · simp [put, State.serve]
      | addDocument screen x autoID comment =>
        cases hr
        have hlen := congrArg List.length (Option.some.inj hdoc)
        rw [wordDocument_uuid _ hword, commentCollection, wordDocument,
          COLLECTION_BOARD_eq, COLLECTION_BOARD_eq] at hlen
        simp at hlen
      | _ => cases hr <;> cases hdoc
    · exact .inl ((serve_documents _ outcome hdoc).trans hs)
  · exact .inr (hd.mono hm)

/-- What a move of the launch `l₀` keeps. -/
theorem Valid.move (h : w.Valid) {l₀ : L} {s' : State} (hm : Move (w.view l₀) s') : (w.put l₀ s').Valid := by
  have huid : ∀ l, (w.put l₀ s').uid l = w.uid l := uid_put hm.uid
  have hboard := view_put w l₀ s'
  constructor
  case screens =>
    intro l
    by_cases hl : l = l₀
    · subst hl
      rw [view_put]
      exact (h.screens l).move hm
    · exact (h.screens l).congr (apps_put_ne w s' hl)
  case pipeline =>
    intro l
    by_cases hl : l = l₀
    · subst hl
      have hp := (h.pipeline l).move hm
      rw [view_put]
      simpa [put] using hp
    · rw [board_put_ne s' hl, apps_put_ne w s' hl]
      exact (h.pipeline l).sub hm.used fun p hp _ => hp
  case apart =>
    -- a word of `l₀` and one of another launch
    have main : ∀ l, l ≠ l₀ → ∀ e ∈ s'.board, ∀ e' ∈ (w.view l).board, e.uid ≠ e'.uid := by
      intro l hl e he e' he' hu
      rcases hm.board_uid he with ⟨e₀, h₀, hu₀⟩ | hf
      · exact h.apart l₀ l hl.symm e₀ h₀ e' he' (hu₀.trans hu)
      · exact hf (hu ▸ ((h.pipeline l).uid e' he').1)
    intro l l' hne e he e' he'
    by_cases hl : l = l₀
    · subst hl
      rw [view_put] at he
      rw [board_put_ne s' hne.symm] at he'
      exact main l' hne.symm e he e' he'
    · rw [board_put_ne s' hl] at he
      by_cases hl' : l' = l₀
      · subst hl'
        rw [view_put] at he'
        exact (main l hl e' he' e he).symm
      · rw [board_put_ne s' hl'] at he'
        exact h.apart l l' hne e he e' he'
  case written =>
    intro l
    by_cases hl : l = l₀
    · subst hl
      rw [view_put]
      exact (h.written l).move (h.pipeline l) hm
    · intro t word time u f o he
      rw [view, apps_put_ne w s' hl] at he
      rw [board_put_ne s' hl]
      exact h.written l t word time u f o he
  case stored =>
    intro l t word time u f o he
    rw [huid]
    rcases log_put he with hl | ⟨rfl, hl⟩
    · exact h.stored_move hm hl
    · rcases hm.served_log hl with hl | ⟨r, hp, hr, rfl⟩
      · exact h.stored_move hm hl
      · cases hr
        exact .inl (AList.lookup_insert _)

theorem put_view (w : World L) (l : L) : w.put l (w.view l) = w := by
  simp [put, view]

/-- A step of a launch is a sequence of its moves. -/
theorem Valid.step_cases (h : w.Valid) {x : L × Action} (hs : w.step x = some w') :
    ∃ s', BlindBoard.step (w.view x.1) x.2 = some s' ∧ w' = w.put x.1 s' ∧ Moves (w.view x.1) s' := by
  obtain ⟨s', hs', rfl⟩ := Option.map_eq_some_iff.mp hs
  exact ⟨s', hs', rfl, step_moves (h.screens x.1) hs'⟩

theorem Valid.moves (h : w.Valid) {l : L} {s' : State} (hm : Moves (w.view l) s') : (w.put l s').Valid := by
  induction hm with
  | refl => rwa [put_view]
  | @tail s₁ s₂ _ hm ih =>
    have hm : Move ((w.put l s₁).view l) s₂ := (view_put w l s₁).symm ▸ hm
    have hv := ih.move hm
    rwa [put_put] at hv

theorem Valid.step (h : w.Valid) {x : L × Action} (hs : w.step x = some w') : w'.Valid := by
  obtain ⟨s', -, rfl, hm⟩ := h.step_cases hs
  exact h.moves hm

theorem Valid.uid_step (h : w.Valid) {x : L × Action} (hs : w.step x = some w') (l : L) :
    w'.uid l = w.uid l := by
  obtain ⟨s', -, rfl, hm⟩ := h.step_cases hs
  exact uid_put hm.uid l

/-! ## Erasing the launches of other identifiers -/

/-- `v` is `w` as far as launches of `uid` see. -/
structure Same (uid : Option UUID) (w v : World L) : Prop where
  apps : ∀ l, w.uid l = uid → v.apps l = w.apps l
  slice : w.cloud.slice uid = v.cloud.slice uid
  used : v.used ⊆ w.used

/-- A step of a launch of `uid` is taken on both sides. -/
theorem Same.step {uid : Option UUID} {v : World L} (h : Same uid w v) (hV : w.Valid) {x : L × Action}
    (hs : w.step x = some w') (hx : w.uid x.1 = uid) : ∃ v', v.step x = some v' ∧ Same uid w' v' := by
  obtain ⟨s', hs', rfl, hm⟩ := hV.step_cases hs
  simp only [BlindBoard.step, Option.ite_none_left_eq_some] at hs'
  obtain ⟨hc, hact⟩ := hs'
  have huid : (w.view x.1).app.uid = uid := hx
  have hsame : (w.view x.1).cloud.slice (w.view x.1).app.uid = v.cloud.slice (w.view x.1).app.uid :=
    huid ▸ h.slice
  obtain ⟨t, ht, happ, hslice, hused⟩ := act_local hact hsame h.used
  have hview : v.view x.1 = ⟨v.cloud, v.used, (w.view x.1).app⟩ := by
    rw [view, h.apps x.1 hx]
    rfl
  refine ⟨v.put x.1 t, ?_, ?_, huid ▸ hslice, hused⟩
  · rw [World.step, hview, BlindBoard.step, if_neg hc, ht]
    rfl
  · intro l hl
    by_cases he : l = x.1
    · subst he
      simp [put, happ]
    · rw [apps_put_ne v t he, apps_put_ne w s' he]
      rw [uid_put hm.uid] at hl
      exact h.apps l hl

/-- A step of another launch is not seen. -/
theorem Same.drop {uid : Option UUID} {v : World L} (h : Same uid w v) (hV : w.Valid) {x : L × Action}
    (hs : w.step x = some w') (hx : w.uid x.1 ≠ uid) : Same uid w' v := by
  obtain ⟨s', -, rfl, hm⟩ := hV.step_cases hs
  refine ⟨fun l hl => ?_, ?_, List.Subset.trans h.used hm.used⟩
  · rw [uid_put hm.uid] at hl
    have he : l ≠ x.1 := fun e => hx (e ▸ hl)
    rw [apps_put_ne w s' he]
    exact h.apps l hl
  · exact (hm.slice hx.symm).trans h.slice

/-- A run, and what is left of it without the launches of other identifiers. -/
theorem Start.run_same {w₀ : World L} (h₀ : w₀.Start) {as : List (L × Action)}
    (hr : run World.step w₀ as = some w)
    (uid : Option UUID) : w.Valid ∧ (∀ l, w.uid l = w₀.uid l) ∧
      ∃ v, run World.step w₀ (as.filter fun x => w₀.uid x.1 = uid) = some v ∧ Same uid w v := by
  have hsame : Same uid w₀ w₀ := ⟨fun _ _ => rfl, rfl, List.Subset.refl _⟩
  have hkeep : ∀ (w v : World L) (x : L × Action) (w' : World L),
      (w.Valid ∧ (∀ l, w.uid l = w₀.uid l) ∧ Same uid w v) → decide (w₀.uid x.1 = uid) = true →
        w.step x = some w' →
      ∃ v', v.step x = some v' ∧ w'.Valid ∧ (∀ l, w'.uid l = w₀.uid l) ∧ Same uid w' v' := by
    rintro w v x w' ⟨hV, hu, hS⟩ hk hs
    obtain ⟨v', hv, hS'⟩ := hS.step hV hs ((hu x.1).trans (of_decide_eq_true hk))
    exact ⟨v', hv, hV.step hs, fun l => (hV.uid_step hs l).trans (hu l), hS'⟩
  have hdrop : ∀ (w v : World L) (x : L × Action) (w' : World L),
      (w.Valid ∧ (∀ l, w.uid l = w₀.uid l) ∧ Same uid w v) → decide (w₀.uid x.1 = uid) = false →
        w.step x = some w' →
      w'.Valid ∧ (∀ l, w'.uid l = w₀.uid l) ∧ Same uid w' v := by
    rintro w v x w' ⟨hV, hu, hS⟩ hk hs
    have hne : w.uid x.1 ≠ uid := by
      rw [hu]
      exact of_decide_eq_false hk
    exact ⟨hV.step hs, fun l => (hV.uid_step hs l).trans (hu l), hS.drop hV hs hne⟩
  obtain ⟨v, hv, hV, hu, hS⟩ := run_filter hkeep hdrop ⟨h₀.valid, fun _ => rfl, hsame⟩ hr
  exact ⟨hV, hu, v, hv, hS⟩

end World

end World

/-- An identifier is of one device. -/
theorem device_of_identifier {L D : Type} {device : L → D} {ident : D → UUID} (hi : Function.Injective ident)
    {w₀ : World L} (hd : ∀ l, w₀.uid l = none ∨ w₀.uid l = some (ident (device l)))
    {l l' : L} (hl : w₀.uid l ≠ none)
    (hl' : w₀.uid l' = w₀.uid l) : device l' = device l := by
  have h := (hd l).resolve_left hl
  have h' := (hd l').resolve_left (hl' ▸ hl)
  exact hi (Option.some.inj (h'.symm.trans (hl'.trans h)))

/-- A board belongs to what `identifierForVendor` yields. What a launch sees and the
cloud holds for it is the same without the launches in which it yields anything else,
and, where it yields an identifier, without those on other devices; and every word that
was written in a launch in which it yields the same, and not deleted, is listed. -/
theorem board_of_identifier {L D : Type} [DecidableEq L] [DecidableEq D] {device : L → D} {ident : D → UUID}
    (hi : Function.Injective ident) {w₀ w : World L} {as : List (L × Action)} (h₀ : w₀.Start)
    (hd : ∀ l, w₀.uid l = none ∨ w₀.uid l = some (ident (device l)))
    (hr : run World.step w₀ as = some w) (l : L) :
    (∃ v, run World.step w₀ (as.filter fun x => w₀.uid x.1 = w₀.uid l) = some v ∧
      (∀ l', w₀.uid l' = w₀.uid l → v.apps l' = w.apps l') ∧
      v.cloud.slice (w₀.uid l) = w.cloud.slice (w₀.uid l)) ∧
    (w₀.uid l ≠ none → (∀ l', w₀.uid l' = w₀.uid l → device l' = device l) ∧
      ∀ v, run World.step w₀ (as.filter fun x => device x.1 = device l) = some v →
        (∀ l', w₀.uid l' = w₀.uid l → v.apps l' = w.apps l') ∧
          v.cloud.slice (w₀.uid l) = w.cloud.slice (w₀.uid l)) ∧
    ∀ l', w₀.uid l' = w₀.uid l → ∀ t word time imageUrl imageFileName o,
      .served t (.setData word time imageUrl imageFileName) (.success o) ∈ (w.apps l').log →
      ¬ w.Deleted (w₀.uid l) (wordDocument (w₀.uid l) word.uid) →
      { word with imageUrl, imageFileName } ∈
        (getDocuments w.cloud.documents (COLLECTION_BOARD (w₀.uid l)) "writtenTime" true).map
          fun d => Word.ofDictionary d.2 := by
  obtain ⟨hV, hu, v, hv, hS⟩ := h₀.run_same hr (w₀.uid l)
  refine ⟨⟨v, hv, fun l' hl' => hS.apps l' ((hu l').trans hl'), hS.slice.symm⟩, fun hne => ?_, ?_⟩
  · have hdev (l' : L) (hl' : w₀.uid l' = w₀.uid l) : device l' = device l :=
      device_of_identifier hi hd hne hl'
    refine ⟨hdev, fun v' hr' => ?_⟩
    -- the run of the device and the whole run have the same run of the identifier
    obtain ⟨-, hu', v'', hv'', hS'⟩ := h₀.run_same hr' (w₀.uid l)
    have hfilter : (as.filter fun x => device x.1 = device l).filter (fun x => w₀.uid x.1 = w₀.uid l) =
        as.filter fun x => w₀.uid x.1 = w₀.uid l := by
      rw [List.filter_filter]
      refine List.filter_congr fun x _ => ?_
      by_cases hx : w₀.uid x.1 = w₀.uid l <;> simp [hx, hdev]
    rw [hfilter] at hv''
    cases hv.symm.trans hv''
    refine ⟨fun l' hl' => ?_, hS'.slice.trans hS.slice.symm⟩
    rw [← hS.apps l' ((hu l').trans hl'), hS'.apps l' ((hu' l').trans hl')]
  · intro l' hl' t word time imageUrl imageFileName o he hn
    obtain ⟨e, heb, hword, -⟩ := hV.written l' t word time imageUrl imageFileName o he
    have huuid : IsUUID word.uid := hword ▸ ((hV.pipeline l').uid e heb).2
    have hs := hV.stored l' t word time imageUrl imageFileName o he
    rw [hu, hl'] at hs
    refine List.mem_map.mpr ⟨_, mem_getDocuments.mpr ⟨hs.resolve_right hn, ?_, rfl⟩, rfl⟩
    rw [wordDocument_uuid _ huuid]
    exact inCollection_append _ _

/-! ## Two devices -/

/-- The identifiers of two devices. -/
def vendor : Bool → UUID
  | false => uuid₃
  | true => uuid₄

/-- The one device adds a word, then the other fetches its list. -/
def addThere : List (Bool × Action) :=
  (addActions 0 "cat" uuid₁ uuid₂ "2022-10-01T09:00:00Z").map (false, ·) ++
    (.viewDidLoad :: fetchActions 0).map (true, ·)

theorem vendor_injective : Function.Injective vendor := by
  intro d d' h
  have : ∀ d d', vendor d = vendor d' → d = d' := by decide
  exact this d d' h

/-- Without identifiers, the one lists the other's word. -/
theorem boards_shared : ¬ ∀ (device : Bool → Bool) (ident : Bool → UUID), Function.Injective ident →
    ∀ (w₀ w : World Bool) as, w₀.Start → (∀ l, w₀.uid l = none ∨ w₀.uid l = some (ident (device l))) →
      run World.step w₀ as = some w → ∀ l, ∃ v,
        run World.step w₀ (as.filter fun x => device x.1 = device l) = some v ∧ v.apps l = w.apps l := by
  intro h
  obtain ⟨hshared, halone⟩ :
      (run World.step (World.empty fun _ => none) addThere).map (fun w => (w.apps true).arr) = some [cat] ∧
      (run World.step (World.empty fun _ => none) (addThere.filter fun x => x.1 = true)).map
        (fun v => (v.apps true).arr) = some [] := by decide +kernel
  obtain ⟨w, hr, hw⟩ := Option.map_eq_some_iff.mp hshared
  obtain ⟨v, hv, ha⟩ := h id vendor vendor_injective _ w addThere (fun _ => rfl) (fun _ => .inl rfl) hr true
  obtain ⟨v', hv', hn⟩ := Option.map_eq_some_iff.mp halone
  cases hv.symm.trans hv'
  rw [ha, hw] at hn
  cases hn

/-- A deletion is served. -/
def Event.deletes : Event → Bool
  | .served _ (.deleteDocument ..) _ => true
  | _ => false

theorem World.Deleted.deletes {L : Type} {w : World L} {uid : Option UUID} {p : Path} (h : w.Deleted uid p) :
    ∃ l, ∃ e ∈ (w.apps l).log, e.deletes = true := by
  obtain ⟨l, t, call, o, -, hr, he⟩ := h
  cases call <;> cases hr
  exact ⟨l, _, he, rfl⟩

theorem board_of_identifier_cat :
    ∃ w, run World.step (World.empty fun d => some (vendor d)) addThere = some w ∧
    (∃ v, run World.step (World.empty fun d => some (vendor d))
      (addThere.filter fun x => some (vendor x.1) = some (vendor true)) = some v ∧
      v.apps true = w.apps true) ∧
    cat ∈ (getDocuments w.cloud.documents (COLLECTION_BOARD (some (vendor false))) "writtenTime" true).map
      fun d => Word.ofDictionary d.2 := by
  obtain ⟨w, hr, hno, hlog⟩ : ∃ w, run World.step (World.empty fun d => some (vendor d)) addThere = some w ∧
      (∀ l, ∀ e ∈ (w.apps l).log, e.deletes = false) ∧
      .served 4 (.setData ⟨"cat", "a word", uuid₁.uuidString, "", ""⟩ "2022-10-01T09:00:00Z" cat.imageUrl
        cat.imageFileName) (.success "") ∈ (w.apps false).log :=
    exists_run (P := fun w => _ ∧ _) (by decide +kernel)
  have hd : ∀ d, some (vendor d) = none ∨ some (vendor d) = some (vendor (id d)) := fun _ => .inr rfl
  have h := board_of_identifier vendor_injective (fun _ => rfl) hd hr
  obtain ⟨v, hv, ha, -⟩ := (h true).1
  refine ⟨w, hr, ⟨v, hv, ha true rfl⟩, ?_⟩
  refine (h false).2.2 false rfl _ _ _ _ _ _ hlog fun hd => ?_
  obtain ⟨l, e, he, hdel⟩ := hd.deletes
  rw [hno l e he] at hdel
  cases hdel

end BlindBoard
